import ScriptTypes.TypeMap

/-!
# The text of a map

The entries of a map are put in the order of their names before they are written, so the text
depends on what the map holds and not on the order in which the names arrived.

* `Entries.pairwise_sorted`: the order of the entries that are written.
* `Table.sorted_congr`: tables that hold the same have the same entries in order.
* `TypeMap.serialize_congr`: maps that hold the same have the same text.
-/

namespace ScriptTypes

namespace Entries

variable {α : Type}

/-- In a table, an entry is what a look-up of its name finds. -/
theorem mem_iff_get? {entries : Entries α} (hnodup : (names entries).Nodup) {name : String}
    {value : α} : (name, value) ∈ entries ↔ get? entries name = some value := by
  induction entries with
  | nil => simp [get?]
  | cons entry rest ih =>
    obtain ⟨key, first⟩ := entry
    have hcons : key ∉ names rest ∧ (names rest).Nodup := List.nodup_cons.1 hnodup
    rw [List.mem_cons, get?]
    by_cases hk : key = name
    · subst hk
      have hrest : (key, value) ∉ rest := fun hmem => hcons.1 (List.mem_map_of_mem hmem)
      rw [if_pos rfl]
      simp [hrest, eq_comm]
    · rw [if_neg hk, ← ih hcons.2]
      simp [Ne.symm hk]

/-- Putting entries in order changes no look-up. -/
theorem get?_sorted {entries : Entries α} (hnodup : (names entries).Nodup) (name : String) :
    get? (sorted entries) name = get? entries name := by
  have hperm := sorted_perm entries
  have hsorted : (names (sorted entries)).Nodup := (hperm.map Prod.fst).nodup_iff.2 hnodup
  refine Option.ext fun value => ?_
  rw [← mem_iff_get? hsorted, ← mem_iff_get? hnodup, hperm.mem_iff]

theorem pairwise_insertSorted (entry : String × α) {entries : Entries α}
    (h : entries.Pairwise fun a b => a.1 ≤ b.1) :
    (insertSorted entry entries).Pairwise fun a b => a.1 ≤ b.1 := by
  induction entries with
  | nil => exact List.pairwise_singleton _ _
  | cons first rest ih =>
    obtain ⟨hfirst, hrest⟩ := List.pairwise_cons.1 h
    rw [insertSorted]
    split
    · rename_i hle
      refine List.pairwise_cons.2 ⟨fun other ho => ?_, h⟩
      rcases List.mem_cons.1 ho with rfl | ho
      · exact hle
      · exact String.le_trans hle (hfirst other ho)
    · rename_i hle
      refine List.pairwise_cons.2 ⟨fun other ho => ?_, ih hrest⟩
      rcases List.mem_cons.1 ((insertSorted_perm entry rest).mem_iff.1 ho) with rfl | ho
      · exact (String.le_total _ _).resolve_left hle
      · exact hfirst other ho

theorem pairwise_sorted (entries : Entries α) :
    (sorted entries).Pairwise fun a b => a.1 ≤ b.1 := by
  induction entries with
  | nil => exact List.Pairwise.nil
  | cons entry rest ih => exact pairwise_insertSorted entry ih

end Entries

/-- Tables that hold the same have the same entries in order. -/
theorem Table.sorted_congr {α : Type} {table other : Table α}
    (h : ∀ name, table.get? name = other.get? name) : table.sorted = other.sorted := by
  have hmem : ∀ entry, entry ∈ table.entries ↔ entry ∈ other.entries := by
    rintro ⟨name, value⟩
    rw [Entries.mem_iff_get? table.nodup, Entries.mem_iff_get? other.nodup]
    exact iff_of_eq (congrArg (· = some value) (h name))
  have hnodup : ∀ t : Table α, t.entries.Nodup := fun t =>
    List.Pairwise.of_map Prod.fst (fun _ _ hne heq => hne (congrArg Prod.fst heq)) t.nodup
  have hperm : table.sorted.Perm other.sorted :=
    (Entries.sorted_perm _).trans
      (((List.perm_ext_iff_of_nodup (hnodup table) (hnodup other)).2 hmem).trans
        (Entries.sorted_perm _).symm)
  refine hperm.eq_of_pairwise ?_ (Entries.pairwise_sorted _) (Entries.pairwise_sorted _)
  -- Entries that do not come before each other have one name, and so one value.
  rintro ⟨name, value⟩ ⟨name', value'⟩ hleft hright hle hge
  obtain rfl : name = name' := String.le_antisymm hle hge
  have hvalue := (Entries.mem_iff_get? table.nodup).1 ((Entries.sorted_perm _).mem_iff.1 hleft)
  have hvalue' := (Entries.mem_iff_get? other.nodup).1 ((Entries.sorted_perm _).mem_iff.1 hright)
  have hsame : some value = some value' := hvalue.symm.trans ((h name).trans hvalue')
  rw [Option.some.inj hsame]

/-- Maps that hold the same have the same text. -/
theorem TypeMap.serialize_congr {types others : TypeMap}
    (h : ∀ name, types.get? name = others.get? name) : types.serialize = others.serialize := by
  rw [serialize, serialize, Table.sorted_congr h]

end ScriptTypes

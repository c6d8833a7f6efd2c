import ScriptTypes.Proofs.Legibility.Types
import ScriptTypes.Proofs.Rounding
import ScriptTypes.Proofs.Serialization

/-!
# Maps can be read back from their texts

A map is written entry by entry, by name. From the text of a map whose names and types can be
printed the names are read back, and for each name its type and the millionth that its confidence
rounds to; of what else the map holds the text says nothing.

* `Table.mapValues`: the table with each value replaced.
* `TypeMap.Printable`: the maps that are meant to be read back.
* `TypeMap.text_faithful`: what the text of a map says, and what it does not depend on.
-/

namespace ScriptTypes

open Text

/-! ## Values of tables -/

namespace Entries

variable {α β : Type}

/-- The entries with each value replaced. -/
def mapValues (f : α → β) (entries : Entries α) : Entries β := entries.map (Prod.map id f)

theorem names_mapValues (f : α → β) (entries : Entries α) :
    names (mapValues f entries) = names entries := by
  simp [names, mapValues]

theorem get?_mapValues (f : α → β) (entries : Entries α) (name : String) :
    get? (mapValues f entries) name = (get? entries name).map f := by
  induction entries with
  | nil => rfl
  | cons entry rest ih =>
    obtain ⟨key, value⟩ := entry
    by_cases hkey : key = name
    · simp [mapValues, get?, hkey]
    · simpa [mapValues, get?, hkey] using ih

theorem insertSorted_mapValues (f : α → β) (entry : String × α) (entries : Entries α) :
    insertSorted (Prod.map id f entry) (mapValues f entries) =
      mapValues f (insertSorted entry entries) := by
  induction entries with
  | nil => rfl
  | cons first rest ih =>
    by_cases hle : entry.1 ≤ first.1
    · simp [mapValues, insertSorted, hle]
    · simpa [mapValues, insertSorted, hle] using ih

theorem sorted_mapValues (f : α → β) (entries : Entries α) :
    sorted (mapValues f entries) = mapValues f (sorted entries) := by
  induction entries with
  | nil => rfl
  | cons entry rest ih =>
    show insertSorted (Prod.map id f entry) (sorted (mapValues f rest)) = _
    rw [ih, insertSorted_mapValues]
    rfl

end Entries

/-- The table with each value replaced. -/
def Table.mapValues {α β : Type} (f : α → β) (table : Table α) : Table β :=
  ⟨Entries.mapValues f table.entries, by
    rw [Entries.names_mapValues]
    exact table.nodup⟩

/-! ## Entries -/

namespace TypeMap

/-- What the text of a map says of an estimate. -/
def printed (e : Estimate) : Ty × String := (e.type, e.confidence.sixPlaces)

/-- Entries as they stand in the text of a map. -/
def entrySpelling : Spelling (String × Ty × String) :=
  ⟨fun entry => entry.1 ++ ":" ++ entry.2.1.render ++ ":" ++ entry.2.2,
    fun entry => Unmarked [':', ';'] entry.1.toList ∧ entry.2.1.Printable ∧
      entry.2.2.toList.length = 8, [';']⟩

theorem serialize_eq (types : TypeMap) :
    types.serialize.toList = entrySpelling.joined ";" (types.mapValues printed).sorted := by
  rw [Table.sorted, Table.mapValues, Entries.sorted_mapValues, Entries.mapValues, serialize,
    Spelling.joined, List.map_map]
  rfl

/-- An entry is read back piece by piece: its name up to the first colon, its type up to the next,
and eight characters of its confidence. -/
theorem reads_entry {entry : String × Ty × String} (hentry : entrySpelling.valid entry) :
    entrySpelling.Reads entry := by
  obtain ⟨name, type, places⟩ := entry
  obtain ⟨hname, htype, hplaces⟩ := hentry
  rintro ⟨name', type', places'⟩ ⟨hname', htype', hplaces'⟩ u v hu hv h
  have hcolon : ∀ text, StopsAt [':', ';'] (':' :: text) := by simp
  obtain ⟨hnames, hbehindName⟩ := word_append_inj hname hname'
    (hcolon (type.render.toList ++ ':' :: (places.toList ++ u)))
    (hcolon (type'.render.toList ++ ':' :: (places'.toList ++ v)))
    (by simpa [entrySpelling] using h)
  obtain ⟨htypes, hbehindType⟩ := Ty.reads htype type' htype' (':' :: (places.toList ++ u))
    (':' :: (places'.toList ++ v)) (stopsAt_cons.2 (by decide)) (stopsAt_cons.2 (by decide))
    (List.cons.inj hbehindName).2
  obtain ⟨hdigits, huv⟩ := List.append_inj (List.cons.inj hbehindType).2
    (hplaces.trans hplaces'.symm)
  obtain rfl : name = name' := String.toList_inj.1 hnames
  obtain rfl : type = type' := htypes
  obtain rfl : places = places' := String.toList_inj.1 hdigits
  exact ⟨rfl, huv⟩

/-- Names and types of the map can be printed. -/
def Printable (types : TypeMap) : Prop :=
  ∀ entry ∈ types.entries, Unmarked [':', ';'] entry.1.toList ∧ entry.2.type.Printable

instance : DecidablePred Printable := fun types => inferInstanceAs (Decidable
  (∀ entry ∈ types.entries, Unmarked [':', ';'] entry.1.toList ∧ entry.2.type.Printable))

theorem Printable.entries {types : TypeMap} (h : types.Printable) :
    ∀ entry ∈ (types.mapValues printed).sorted, entrySpelling.valid entry := by
  intro entry hentry
  obtain ⟨original, horiginal, rfl⟩ := List.mem_map.1 ((Entries.sorted_perm _).mem_iff.1 hentry)
  exact ⟨(h original horiginal).1, (h original horiginal).2, Confidence.length_sixPlaces _⟩

theorem eq_of_joined_eq {entries others : Entries (Ty × String)}
    (hentries : ∀ entry ∈ entries, entrySpelling.valid entry)
    (hothers : ∀ entry ∈ others, entrySpelling.valid entry)
    (h : entrySpelling.joined ";" entries = entrySpelling.joined ";" others) :
    entries = others := by
  have hne : ∀ entry (entries : Entries (Ty × String)),
      entrySpelling.joined ";" (entry :: entries) ≠ [] := by
    intro entry entries
    obtain ⟨tail, htail⟩ := entrySpelling.exists_joined_cons ";" entry entries
    rw [htail]
    simp [entrySpelling]
  cases entries with
  | nil =>
    cases others with
    | nil => rfl
    | cons entry others => exact absurd h.symm (hne entry others)
  | cons entry entries =>
    cases others with
    | nil => exact absurd h (hne entry entries)
    | cons other others =>
      have hseparates : entrySpelling.Separates ";" [] :=
        ⟨⟨';', [], by decide, by decide, by decide⟩, by decide⟩
      exact (Spelling.reads_join hseparates stopsAt_nil stopsAt_nil
        (fun x hx => reads_entry (hentries x hx)) hothers (by rw [h])).1

/-- Maps have the same text if and only if they say the same of each name. -/
theorem serialize_eq_iff {types others : TypeMap} (htypes : types.Printable)
    (hothers : others.Printable) :
    types.serialize = others.serialize ↔
      ∀ name, (types.get? name).map printed = (others.get? name).map printed := by
  have hget : ∀ (types : TypeMap) name,
      (types.mapValues printed).get? name = (types.get? name).map printed :=
    fun types name => Entries.get?_mapValues printed types.entries name
  rw [← String.toList_inj, serialize_eq, serialize_eq]
  constructor
  · intro h name
    have hsorted := eq_of_joined_eq htypes.entries hothers.entries h
    rw [← hget, ← hget, Table.get?, Table.get?, ← Entries.get?_sorted (Table.nodup _),
      ← Entries.get?_sorted (Table.nodup _)]
    exact congrArg (Entries.get? · name) hsorted
  · intro h
    have hsorted : (types.mapValues printed).sorted = (others.mapValues printed).sorted :=
      Table.sorted_congr fun name => by rw [hget, hget, h name]
    rw [hsorted]

theorem get?_eq_of_perm {α : Type} {table other : Table α} (h : table.entries.Perm other.entries)
    (name : String) : table.get? name = other.get? name := by
  refine Option.ext fun value => ?_
  rw [Table.get?, Table.get?, ← Entries.mem_iff_get? table.nodup,
    ← Entries.mem_iff_get? other.nodup, h.mem_iff]

/-- Printable types are told apart by their texts, and so are maps with printable names and types
as far as types go and the millionths that the exact values of the confidences round to; the order
in which the names of a map arrived does not show. -/
theorem text_faithful :
    (∀ s t : Ty, s.Printable → t.Printable → s.render = t.render → s = t) ∧
      (∀ types others : TypeMap, types.Printable → others.Printable →
        (types.serialize = others.serialize ↔ ∀ name, Option.Rel
          (fun e e' => e.type = e'.type ∧ e.confidence.AgreeToSixPlaces e'.confidence)
          (types.get? name) (others.get? name))) ∧
      ∀ types others : TypeMap, types.entries.Perm others.entries →
        types.serialize = others.serialize := by
  refine ⟨fun s t hs ht h => ?_, fun types others htypes hothers => ?_,
    fun types others hperm => ?_⟩
  · exact (Ty.reads hs t ht [] [] stopsAt_nil stopsAt_nil (by simp [Ty.spelling, h])).1
  · rw [serialize_eq_iff htypes hothers]
    refine forall_congr' fun name => ?_
    cases types.get? name <;> cases others.get? name <;>
      simp [printed, Confidence.sixPlaces_eq_iff]
  · exact serialize_congr (get?_eq_of_perm hperm)

/-- Functions that take a number or a function, in either order, and any number of maps. -/
def visitor (choice : List Ty) : Ty :=
  .fn [.array (.union choice)] (.union [.null, .fn [] .void none])
    (some (.generic "Map" [.string, .any]))

/-- A map with a visitor held so firmly, and a list of such functions beside it. -/
def visiting (choice : List Ty) (confidence : Confidence) : TypeMap :=
  Table.ofEntries [("visit", .of (visitor choice) confidence),
    ("all", .of (.array (visitor choice)) .one)]

/-- The same with the names in the other order. -/
def visitingLater (choice : List Ty) (confidence : Confidence) : TypeMap :=
  Table.ofEntries [("all", .of (.array (visitor choice)) .one),
    ("visit", .of (visitor choice) confidence)]

/-- The double before one. -/
def almostOne : Confidence := ⟨Binary64.onePattern - 1, Nat.sub_le _ _⟩

theorem text_faithful_visitors :
    let first : List Ty := [.number, .fn [.any] .boolean none]
    let second : List Ty := [.fn [.any] .boolean none, .number]
    (visitor first).Printable ∧ (visitor second).Printable ∧
      (visitor first).render ≠ (visitor second).render ∧
      (∀ c, (visiting first c).Printable) ∧ (visiting second .one).Printable ∧
      (visiting first .one).serialize ≠ (visiting second .one).serialize ∧
      (visiting first (.percent 50)).serialize ≠ (visiting first (.percent 90)).serialize ∧
      (visiting first almostOne).serialize = (visiting first .one).serialize ∧
      (visiting first .one).entries.Perm (visitingLater first .one).entries ∧
      (visiting first .one).serialize = (visitingLater first .one).serialize := by
  intro first second
  have hfirst : (visitor first).Printable := by decide
  have hsecond : (visitor second).Printable := by decide
  have hlist : (Ty.array (visitor first)).Printable := by decide
  have hnames : Unmarked [':', ';'] "visit".toList ∧ Unmarked [':', ';'] "all".toList := by decide
  have hvisiting : ∀ c, (visiting first c).Printable := fun c =>
    List.forall_mem_cons.2 ⟨⟨hnames.1, hfirst⟩, List.forall_mem_singleton.2 ⟨hnames.2, hlist⟩⟩
  have hvisiting' : (visiting second .one).Printable := by decide
  have hne : visitor first ≠ visitor second := by simp [visitor, first, second]
  have hperm : (visiting first .one).entries.Perm (visitingLater first .one).entries :=
    .swap _ _ _
  have hget : ∀ choice c name, (visiting choice c).get? name =
      if "visit" = name then some (.of (visitor choice) c)
      else if "all" = name then some (.of (.array (visitor choice)) .one) else none :=
    fun _ _ _ => rfl
  refine ⟨hfirst, hsecond, fun h => hne (text_faithful.1 _ _ hfirst hsecond h), hvisiting,
    hvisiting', fun h => ?_, fun h => ?_, ?_, hperm, text_faithful.2.2 _ _ hperm⟩
  · have hrel := (text_faithful.2.1 _ _ (hvisiting _) hvisiting').1 h "visit"
    rw [hget, hget, if_pos rfl, if_pos rfl, Option.rel_some_some] at hrel
    exact hne hrel.1
  · have hrel := (text_faithful.2.1 _ _ (hvisiting _) (hvisiting _)).1 h "visit"
    rw [hget, hget, if_pos rfl, if_pos rfl, Option.rel_some_some] at hrel
    exact absurd hrel.2 (by decide +kernel)
  · refine (text_faithful.2.1 _ _ (hvisiting _) (hvisiting _)).2 fun name => ?_
    rw [hget, hget]
    split
    · exact .some ⟨rfl, by decide +kernel⟩
    · split
      · exact .some ⟨rfl, by decide +kernel⟩
      · exact .none

end TypeMap

end ScriptTypes

import ScriptTypes.Proofs.Commented.Programs
import ScriptTypes.Proofs.Names

/-!
# Tables for two groups of names

What a table for a whole program says of names, put together from what the tables for two parts of
it say, each of which binds names of its own. What is written for names of one part keeps the tables
together.

* `Joined`: look-ups put together from two.
* `Joined.plant`, `Joined.foldl_observe`: what the one part declares and uses.
* `Joined.fold`: uses folded into types.
-/

namespace ScriptTypes

/-- Look-ups that are put together from two: they find what the first does of all names but the
foreign ones, and what the second does of all names but the own ones. -/
structure Joined {α : Type} (own foreign : String → Prop) (part rest whole : String → Option α) :
    Prop where
  part_eq {name : String} : ¬foreign name → whole name = part name
  rest_eq {name : String} : ¬own name → whole name = rest name

namespace Joined

variable {own foreign : String → Prop} {name : String}

section

variable {α : Type} {part rest whole : String → Option α}

theorem nothing : Joined own foreign (fun _ => none : String → Option α) (fun _ => none)
    fun _ => none := ⟨fun _ => rfl, fun _ => rfl⟩

theorem symm (h : Joined own foreign part rest whole) : Joined foreign own rest part whole :=
  ⟨h.rest_eq, h.part_eq⟩

/-- What is written for an own name is found in the part and in the whole. -/
theorem write {part' whole' : String → Option α} {value : α}
    (h : Joined own foreign part rest whole) (ho : own name)
    (hpart : ∀ other, part' other = if name = other then some value else part other)
    (hwhole : ∀ other, whole' other = if name = other then some value else whole other) :
    Joined own foreign part' rest whole' where
  part_eq hf := by rw [hpart, hwhole, h.part_eq hf]
  rest_eq {other} hother := by
    have hne : name ≠ other := fun heq => hother (heq ▸ ho)
    rw [hwhole, if_neg hne, h.rest_eq hother]

theorem set {part whole : Table α} (h : Joined own foreign part.get? rest whole.get?)
    (ho : own name) (value : α) :
    Joined own foreign (part.set name value).get? rest (whole.set name value).get? :=
  h.write ho (part.get?_set name · value) (whole.get?_set name · value)

end

/-! ## Types -/

variable {types whole : TypeMap} {rest : String → Option Estimate}

theorem assign (h : Joined own foreign types.get? rest whole.get?) (ho : own name)
    (hf : ¬foreign name) (e : Estimate) (replaceEqual : Bool) :
    Joined own foreign (types.assign name e replaceEqual).get? rest
      (whole.assign name e replaceEqual).get? where
  part_eq hother := by
    rw [TypeMap.get?_assign, TypeMap.get?_assign, h.part_eq hf, h.part_eq hother]
  rest_eq {other} hother := by
    have hne : name ≠ other := fun heq => hother (heq ▸ ho)
    rw [TypeMap.get?_assign, if_neg hne, h.rest_eq hother]

theorem plant (h : Joined own foreign types.get? rest whole.get?) {seeds : List Seed}
    (hseeds : ∀ seed ∈ seeds, own seed.1 ∧ ¬foreign seed.1) :
    Joined own foreign (types.plant seeds).get? rest (whole.plant seeds).get? := by
  unfold TypeMap.plant
  induction seeds generalizing types whole with
  | nil => exact h
  | cons seed seeds ih =>
    obtain ⟨⟨ho, hf⟩, hseeds⟩ := List.forall_mem_cons.1 hseeds
    exact ih (h.assign ho hf seed.2 false) hseeds

/-! ## Uses -/

/-- A use in the one part is seen alike in that part and in the whole. -/
theorem observe {usage whole : Usage} {rest : String → Option (List UsageTag)}
    {types others : TypeMap} {place place' : Place}
    (h : Joined own foreign usage.get? rest whole.get?) (hplace : place.Commented Eq place')
    (hcontains : ∀ name, ¬foreign name → others.contains name = types.contains name)
    (hown : ∀ name ∈ types.names, own name)
    (hwritten : place.node.kind = .identifier → ∀ name, place.node.text = some name →
      ¬foreign name) :
    Joined own foreign (Usage.observe types usage place).get? rest
      (Usage.observe others whole place').get? := by
  unfold Usage.observe
  rw [hplace.node.kind, hplace.isBinding biUnique_eq, hplace.node.text, hplace.usage? biUnique_eq]
  split
  · rename_i hk
    split
    · rename_i name tag htext _
      have hf := hwritten hk.1 name htext
      rw [hcontains name hf]
      split
      · rename_i hknown
        rw [Usage.note, Usage.note, h.part_eq hf]
        exact h.set (hown name (Table.contains_iff.1 hknown)) _
      · exact h
    · exact h
  · exact h

theorem foldl_observe {usage whole : Usage} {rest : String → Option (List UsageTag)}
    {types others : TypeMap} {places places' : List Place}
    (hplaces : Interspersed (·.node.IsRemark) (Place.Commented Eq) places places')
    (h : Joined own foreign usage.get? rest whole.get?)
    (hcontains : ∀ name, ¬foreign name → others.contains name = types.contains name)
    (hown : ∀ name ∈ types.names, own name)
    (hwritten : ∀ place ∈ places, place.node.kind = .identifier → ∀ name,
      place.node.text = some name → ¬foreign name) :
    Joined own foreign (places.foldl (Usage.observe types) usage).get? rest
      (places'.foldl (Usage.observe others) whole).get? := by
  induction hplaces generalizing usage whole with
  | nil => exact h
  | keep hplace _ ih =>
    obtain ⟨hfirst, hwritten⟩ := List.forall_mem_cons.1 hwritten
    exact ih (h.observe hplace hcontains hown hfirst) hwritten
  | @insert place' places places' hremark _ ih =>
    have hskip : Usage.observe others whole place' = whole := by
      simp [Usage.observe, hremark.kind]
    rw [List.foldl_cons, hskip]
    exact ih h hwritten

/-- Uses change each name by what is seen of it, so that folding them in keeps the maps together. -/
theorem fold {usage restUsage wholeUsage : Usage} {rest : TypeMap}
    (hu : Joined own foreign usage.get? restUsage.get? wholeUsage.get?)
    (h : Joined own foreign types.get? rest.get? whole.get?) :
    Joined own foreign (usage.fold types).get? (restUsage.fold rest).get?
      (wholeUsage.fold whole).get? where
  part_eq hf := by rw [Usage.get?_fold_eq, Usage.get?_fold_eq, hu.part_eq hf, h.part_eq hf]
  rest_eq ho := by rw [Usage.get?_fold_eq, Usage.get?_fold_eq, hu.rest_eq ho, h.rest_eq ho]

end Joined

end ScriptTypes

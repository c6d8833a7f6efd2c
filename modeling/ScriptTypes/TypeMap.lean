import ScriptTypes.Estimate.Basic

/-!
# Maps from names to estimates

The map of a run holds the best estimate so far for each name. A new estimate is taken when its
confidence is greater, or, where the writer asks for it, when it is as great.

* `assign`: offers an estimate for a name.
* `assignChanges`: whether the offer leaves the name with a different estimate.
* `serialize`: the text of the map, by name.
-/

namespace ScriptTypes

/-- The best estimate so far for each name. -/
abbrev TypeMap := Table Estimate

/-- Whether a new estimate takes the place of the one that is there. -/
def Estimate.supersedes (new : Estimate) (old : Option Estimate) (replaceEqual : Bool) : Bool :=
  match old with
  | none => true
  | some old =>
    old.confidence < new.confidence || (replaceEqual && old.confidence = new.confidence)

/-- The estimate that is kept of the one that is there and a new one. -/
def Estimate.merge (old : Option Estimate) (new : Estimate) (replaceEqual : Bool) : Estimate :=
  if new.supersedes old replaceEqual then new else old.getD new

namespace TypeMap

/-- Offers an estimate for a name. -/
def assign (types : TypeMap) (name : String) (new : Estimate) (replaceEqual : Bool) : TypeMap :=
  if new.supersedes (types.get? name) replaceEqual then types.set name new else types

/-- Whether the offer leaves the name with a different estimate. -/
def assignChanges (types : TypeMap) (name : String) (new : Estimate) (replaceEqual : Bool) :
    Bool :=
  new.supersedes (types.get? name) replaceEqual &&
    match types.get? name with
    | none => true
    | some old => !(old == new)

/-- One entry of the text of a map. -/
def serializeEntry (entry : String × Estimate) : String :=
  entry.1 ++ ":" ++ entry.2.type.render ++ ":" ++ entry.2.confidence.sixPlaces

/-- The text of a map: name, type and confidence of each entry, by name. -/
def serialize (types : TypeMap) : String := Text.join ";" (types.sorted.map serializeEntry)

theorem get?_assign (types : TypeMap) (name other : String) (new : Estimate) (replaceEqual : Bool) :
    (types.assign name new replaceEqual).get? other =
      if name = other then some (Estimate.merge (types.get? name) new replaceEqual)
      else types.get? other := by
  unfold assign Estimate.merge
  by_cases h : new.supersedes (types.get? name) replaceEqual = true
  · simp [h, Table.get?_set]
  · by_cases ho : name = other
    · subst ho
      cases hold : types.get? name with
      | none => simp [hold, Estimate.supersedes] at h
      | some old => simp [hold] at h; simp [h, hold]
    · simp [h, ho]

theorem mem_names_assign {types : TypeMap} {name other : String} {new : Estimate}
    {replaceEqual : Bool} :
    other ∈ (types.assign name new replaceEqual).names ↔ other = name ∨ other ∈ types.names := by
  rw [Table.mem_names_iff, Table.mem_names_iff, get?_assign]
  by_cases h : name = other
  · simp [h]
  · simp [h, Ne.symm h]

end TypeMap

end ScriptTypes

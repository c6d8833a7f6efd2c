import ScriptTypes.Confidence.Levels
import ScriptTypes.Table
import ScriptTypes.Text.Join
import ScriptTypes.Ty.Printer
import ScriptTypes.Ty.Union

/-!
# Estimates

An estimate is a type with the confidence in which it is held, and for object literals the
estimates of the properties, in the order in which they were written. Two estimates are equal when
their types are equal, their confidences are the same and they know the same properties, in any
order, with equal estimates.

* `Estimate.sameShape_iff`: equality of shapes is agreement on every name.
-/

namespace ScriptTypes

/-- A type held with some confidence. The shape is known of object literals only. -/
structure Estimate where
  type : Ty
  confidence : Confidence
  shape : Option (List (String × Estimate))

namespace Estimate

/-- An estimate without a shape. -/
abbrev of (type : Ty) (confidence : Confidence) : Estimate := ⟨type, confidence, none⟩

/-- Nothing is known. -/
def unknown : Estimate := of .any .unknown

/-- The result of a call of which nothing is known. -/
def unknownCall : Estimate := of .any .unknownCall

/-! ## Equality -/

mutual
/-- Equality of estimates; the order of properties does not count. -/
def same : Estimate → Estimate → Bool
  | ⟨s, c, p⟩, ⟨t, d, q⟩ => s == t && c = d && sameShape p q

/-- Equality of shapes: both absent, or the same names with equal estimates. -/
def sameShape : Option (List (String × Estimate)) → Option (List (String × Estimate)) → Bool
  | none, none => true
  | some as, some bs => (Entries.names bs).all (· ∈ Entries.names as) && sameEntries [] as bs
  | _, _ => false

/-- Whether the entries equal those of another shape for the same names. Only the first entry for a
name counts, so those for names that were seen before are passed over. -/
def sameEntries (seen : List String) :
    List (String × Estimate) → List (String × Estimate) → Bool
  | [], _ => true
  | (key, value) :: rest, others =>
    (key ∈ seen ||
      match Entries.get? others key with
      | some other => same value other
      | none => false) &&
    sameEntries (key :: seen) rest others
end

private theorem sameEntries_iff (seen : List String) (as bs : List (String × Estimate)) :
    sameEntries seen as bs = true ↔
      ∀ name, name ∉ seen → ∀ value, Entries.get? as name = some value →
        ∃ other, Entries.get? bs name = some other ∧ same value other = true := by
  induction as generalizing seen with
  | nil => simp [sameEntries, Entries.get?]
  | cons entry rest ih =>
    obtain ⟨key, first⟩ := entry
    have hfirst : (match Entries.get? bs key with
        | some other => same first other
        | none => false) = true ↔
          ∃ other, Entries.get? bs key = some other ∧ same first other = true := by
      cases Entries.get? bs key <;> simp
    rw [sameEntries, Bool.and_eq_true, Bool.or_eq_true, decide_eq_true_iff, hfirst, ih]
    constructor
    · rintro ⟨hkey, hrest⟩ name hname value hvalue
      by_cases hk : key = name
      · subst hk
        simp only [Entries.get?, if_true, Option.some.injEq] at hvalue
        subst hvalue
        exact hkey.resolve_left hname
      · simp only [Entries.get?, hk, if_false] at hvalue
        exact hrest name (by simp [hname, Ne.symm hk]) value hvalue
    · intro h
      refine ⟨?_, fun name hname value hvalue => ?_⟩
      · by_cases hkey : key ∈ seen
        · exact Or.inl hkey
        · exact Or.inr (h key hkey first (by simp [Entries.get?]))
      · simp only [List.mem_cons, not_or] at hname
        exact h name hname.2 value (by simp [Entries.get?, Ne.symm hname.1, hvalue])

/-- Shapes are equal as maps: on every name both know nothing, or both know equal estimates. -/
theorem sameShape_iff (as bs : List (String × Estimate)) :
    sameShape (some as) (some bs) = true ↔
      ∀ name, Option.Rel (fun value other => same value other = true)
        (Entries.get? as name) (Entries.get? bs name) := by
  rw [sameShape, Bool.and_eq_true, sameEntries_iff]
  simp only [List.all_eq_true, decide_eq_true_iff, List.not_mem_nil, not_false_eq_true,
    forall_const, Entries.mem_names_iff]
  constructor
  · rintro ⟨hnames, hsame⟩ name
    cases ha : Entries.get? as name with
    | some value =>
      obtain ⟨other, hb, hsame⟩ := hsame name value ha
      rw [hb]
      exact Option.Rel.some hsame
    | none =>
      cases hb : Entries.get? bs name with
      | none => exact Option.Rel.none
      | some other =>
        obtain ⟨value, hv⟩ := hnames name ⟨other, hb⟩
        rw [ha] at hv
        cases hv
  · intro h
    refine ⟨fun name hname => ?_, fun name value hv => ?_⟩
    · obtain ⟨other, hb⟩ := hname
      have hrel := h name
      rw [hb] at hrel
      cases ha : Entries.get? as name with
      | some value => exact ⟨value, rfl⟩
      | none =>
        rw [ha] at hrel
        cases hrel
    · have hrel := h name
      rw [hv] at hrel
      cases hb : Entries.get? bs name with
      | none =>
        rw [hb] at hrel
        cases hrel
      | some other =>
        rw [hb] at hrel
        cases hrel with
        | some hsame => exact ⟨other, rfl, hsame⟩

/-- Estimates are compared without regard to the order of properties. -/
instance : BEq Estimate := ⟨same⟩

/-! ## Changing the confidence -/

/-- The same type and shape at another confidence. -/
def withConfidence (e : Estimate) (c : Confidence) : Estimate := { e with confidence := c }

/-- The estimate with its confidence multiplied by a double, given by its bits. -/
def scaled (e : Estimate) (bits : Nat) : Estimate := e.withConfidence (e.confidence.scale bits)

/-- The estimate after it was passed on. -/
def faded (e : Estimate) (decay : Confidence) : Estimate := e.withConfidence (e.confidence * decay)

/-- The estimate known for a property. -/
def property? (e : Estimate) (name : String) : Option Estimate :=
  e.shape.bind fun shape => Entries.get? shape name

/-- The type, if the confidence suffices to build upon it. -/
def usableType (e : Option Estimate) : Ty :=
  match e with
  | some e => if e.confidence < .elementMin then .any else e.type
  | none => .any

/-! ## The text of a shape -/

/-- The fields of a shape between braces. -/
def braced : List String → String
  | [] => "\x7b\x7d"
  | fields => "\x7b " ++ Text.join ", " fields ++ " \x7d"

mutual
/-- The properties if they are known, otherwise the type. -/
def renderShape : Estimate → String
  | ⟨type, _, none⟩ => type.render
  | ⟨_, _, some shape⟩ => braced (renderFields shape)

/-- The fields of a shape, one by one. -/
def renderFields : List (String × Estimate) → List String
  | [] => []
  | (name, value) :: rest => (name ++ ": " ++ renderShape value) :: renderFields rest
end

end Estimate

end ScriptTypes

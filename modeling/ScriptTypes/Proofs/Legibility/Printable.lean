import ScriptTypes.Proofs.Legibility.Texts
import ScriptTypes.Proofs.Unions

/-!
# Printable types

The types whose texts tell them apart: no name in them looks like another type or breaks a text
apart, and each union is written as one.

* `Ty.Printable`: the types that are meant to be read back.
-/

namespace ScriptTypes

open Text

namespace Ty

/-- The characters that stand between and around the names in the text of a map. -/
def marks : List Char := [' ', '(', ')', '<', '>', '[', ']', ',', '|', '=', '.', ':', ';']

/-- A name that is not taken for another type and has no marks in it. -/
structure PrintableName (name : String) : Prop where
  ne_empty : name ≠ ""
  ne_any : name ≠ "any"
  ne_primitive : ∀ p : Primitive, name ≠ p.name
  unmarked : Unmarked marks name.toList

instance : DecidablePred PrintableName := fun name =>
  decidable_of_iff (name ≠ "" ∧ name ≠ "any" ∧ (∀ p ∈ Primitive.all, name ≠ p.name) ∧
      Unmarked marks name.toList) <| by
    have hall : ∀ p, p ∈ Primitive.all := by
      intro p
      cases p <;> decide
    constructor
    · intro h
      exact ⟨h.1, h.2.1, fun p => h.2.2.1 p (hall p), h.2.2.2⟩
    · intro h
      exact ⟨h.ne_empty, h.ne_any, fun p _ => h.ne_primitive p, h.unmarked⟩

/-- What is asked of each type inside a printable type: a union has two members or more and none of
them is a union, and a name can be printed. -/
def PrintablePart : Ty → Prop
  | .union members => 2 ≤ members.length ∧ ∀ m ∈ members, m.isUnion = false
  | .generic name _ => PrintableName name
  | _ => True

instance : DecidablePred PrintablePart
  | .any => .isTrue trivial
  | .prim _ => .isTrue trivial
  | .array _ => .isTrue trivial
  | .generic name _ => inferInstanceAs (Decidable (PrintableName name))
  | .fn .. => .isTrue trivial
  | .union members =>
    inferInstanceAs (Decidable (2 ≤ members.length ∧ ∀ m ∈ members, m.isUnion = false))

/-- All unions and names in the type can be told apart from other types by their texts. -/
def Printable (t : Ty) : Prop := ∀ part ∈ t.parts, part.PrintablePart

instance : DecidablePred Printable := fun t =>
  inferInstanceAs (Decidable (∀ part ∈ t.parts, part.PrintablePart))

theorem Printable.union {members : List Ty} (h : (Ty.union members).Printable) :
    2 ≤ members.length ∧ ∀ m ∈ members, m.isUnion = false := h _ (mem_parts_self _)

theorem Printable.name {name : String} {args : List Ty} (h : (Ty.generic name args).Printable) :
    PrintableName name := h _ (mem_parts_self _)

theorem Printable.of_mem {part t : Ty} (h : t.Printable) (hpart : part ∈ t.parts) :
    part.Printable := fun inner hinner => h inner (mem_parts_trans hinner hpart)

theorem Printable.component {c t : Ty} (h : t.Printable) (hc : c ∈ t.components) : c.Printable :=
  h.of_mem (mem_parts_of_components hc)

end Ty

end ScriptTypes

import ScriptTypes.Text.Join
import ScriptTypes.Ty.Basic

/-!
# The text of a type

Functions and unions stand in parentheses as elements of an array, functions also as members of a
union.
-/

namespace ScriptTypes.Ty

/-- The text, in parentheses if asked. -/
def parenthesized (inParens : Bool) (text : String) : String :=
  if inParens then "(" ++ text ++ ")" else text

/-- Whether the type stands in parentheses as an element of an array. -/
def isCompound : Ty → Bool
  | .fn .. => true
  | .union _ => true
  | _ => false

mutual
/-- The text of a type. -/
def render : Ty → String
  | .any => "any"
  | .prim p => p.name
  | .array element => parenthesized element.isCompound (render element) ++ "[]"
  | .generic name [] => name
  | .generic name (arg :: args) =>
    name ++ "<" ++ Text.join ", " (render arg :: renderAll args) ++ ">"
  | .fn params returns rest =>
    "(" ++ Text.join ", " (renderAll params ++ renderRest rest) ++ ") => " ++ render returns
  | .union members => Text.join " | " (renderMembers members)

/-- The texts of types. -/
def renderAll : List Ty → List String
  | [] => []
  | t :: ts => render t :: renderAll ts

/-- The text of a rest parameter, if there is one. -/
def renderRest : Option Ty → List String
  | none => []
  | some t => ["..." ++ render t]

/-- The texts of the members of a union. -/
def renderMembers : List Ty → List String
  | [] => []
  | t :: ts => parenthesized t.isSignature (render t) :: renderMembers ts
end

end ScriptTypes.Ty

import ScriptTypes.Ty.Basic

/-!
# Members of unions

A type that is no union is its own only member. Unions are built from distinct members, in the
order in which they first occur, and hold at most four of them.
-/

namespace ScriptTypes.Ty

/-- The most members that a union is built with. -/
def maxMembers : Nat := 4

/-- The members of a union; any other type is its own only member. -/
def members : Ty → List Ty
  | .union ms => ms
  | t => [t]

/-- Adds to the types already seen those of a list that equal none before them. -/
def distinctOnto (seen : List Ty) : List Ty → List Ty
  | [] => seen
  | t :: ts => if seen.any (· == t) then distinctOnto seen ts else distinctOnto (seen ++ [t]) ts

/-- The distinct types of a list, each where it first occurs. -/
def distinct (ts : List Ty) : List Ty := distinctOnto [] ts

/-- The type, or undefined. A type whose only member is undefined stays as it is, and a union that
would grow too large is given up. -/
def orUndefined (t : Ty) : Ty :=
  let ms := distinct (t.members ++ [undefined])
  if maxMembers < ms.length then .any
  else if 1 < ms.length then .union ms
  else t

end ScriptTypes.Ty

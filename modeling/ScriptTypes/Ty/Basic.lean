import ScriptTypes.Text.Quoted

/-!
# Types

The types that are guessed for JavaScript values, and their equality. A union is the set of its
members: two unions are equal when each member of one equals some member of the other, at any
depth of nesting. All other types are equal when they are built alike from equal parts.

* `Ty.same_union`: equality of unions is equality of sets of members.
-/

namespace ScriptTypes

/-- The built-in types without parts. -/
inductive Primitive where
  | number
  | string
  | boolean
  | null
  | undefined
  | object
  | void
deriving DecidableEq, Repr

namespace Primitive

/-- The name of a built-in type. -/
def name : Primitive → String
  | number => "number"
  | string => "string"
  | boolean => "boolean"
  | null => "null"
  | undefined => "undefined"
  | object => "object"
  | void => "void"

/-- All built-in types. -/
def all : List Primitive := [number, string, boolean, null, undefined, object, void]

/-- The built-in type of a name. -/
def ofName? (text : String) : Option Primitive := all.find? (·.name = text)

/-- What is said of a name that no built-in type has. -/
def unknownNameMessage (text : String) : String :=
  Text.quoted text ++ " is not a valid Primitive"

theorem ofName?_name (p : Primitive) : ofName? p.name = some p := by cases p <;> decide

end Primitive

/-- A type. `any` is the type of which nothing is known. -/
inductive Ty where
  | any
  | prim (p : Primitive)
  | array (element : Ty)
  | generic (name : String) (args : List Ty)
  | fn (params : List Ty) (returns : Ty) (rest : Option Ty)
  | union (members : List Ty)

namespace Ty

/-! ## Names of common types -/

@[match_pattern] abbrev number : Ty := .prim .number

@[match_pattern] abbrev string : Ty := .prim .string

@[match_pattern] abbrev boolean : Ty := .prim .boolean

@[match_pattern] abbrev null : Ty := .prim .null

@[match_pattern] abbrev undefined : Ty := .prim .undefined

@[match_pattern] abbrev object : Ty := .prim .object

@[match_pattern] abbrev void : Ty := .prim .void

/-- A function of which nothing is known. -/
@[match_pattern] abbrev function : Ty := .generic "Function" []

/-- A regular expression. -/
@[match_pattern] abbrev regExp : Ty := .generic "RegExp" []

/-- A date. -/
@[match_pattern] abbrev date : Ty := .generic "Date" []

/-- The promise of a value of a type. -/
@[match_pattern] abbrev promise (inner : Ty) : Ty := .generic "Promise" [inner]

/-! ## Equality -/

mutual
/-- Equality of types, with unions taken as sets. -/
def same : Ty → Ty → Bool
  | .any, .any => true
  | .prim p, .prim q => p = q
  | .array a, .array b => same a b
  | .generic n as, .generic m bs => n = m && sameAll as bs
  | .fn ps r x, .fn qs s y => sameAll ps qs && same r s && sameRest x y
  | .union as, .union bs => sameMembers as bs (bs.map fun _ => false)
  | _, _ => false

/-- Equality of lists of types, one by one. -/
def sameAll : List Ty → List Ty → Bool
  | [], [] => true
  | a :: as, b :: bs => same a b && sameAll as bs
  | _, _ => false

/-- Equality of rest types: both absent, or equal. -/
def sameRest : Option Ty → Option Ty → Bool
  | none, none => true
  | some a, some b => same a b
  | _, _ => false

/-- Each type of the first list equals some type of the second, and each type of the second is met
already or equals some type of the first. Every two members are compared once, so that the work
grows with the product of the sizes however deep unions are nested. -/
def sameMembers : List Ty → List Ty → List Bool → Bool
  | [], _, met => met.all id
  | a :: as, bs, met =>
    let equal := bs.map (same a)
    equal.any id && sameMembers as bs (List.zipWith or met equal)
end

private theorem zipWith_or_map (f g : Ty → Bool) (ts : List Ty) :
    List.zipWith or (ts.map f) (ts.map g) = ts.map fun t => f t || g t := by
  induction ts with
  | nil => rfl
  | cons t ts ih => simp [ih]

private theorem sameMembers_map (as bs : List Ty) (met : Ty → Bool) :
    sameMembers as bs (bs.map met) =
      (as.all (fun a => bs.any (same a)) &&
        bs.all fun b => met b || as.any fun a => same a b) := by
  induction as generalizing met with
  | nil => simp [sameMembers, List.all_map]
  | cons a as ih =>
    have hany : (bs.map (same a)).any id = bs.any (same a) := by simp [List.any_map]
    rw [sameMembers, zipWith_or_map, ih, hany, List.all_cons, Bool.and_assoc]
    simp only [List.any_cons, Bool.or_assoc]

/-- Unions are equal as sets: each member of one equals some member of the other. -/
theorem same_union (as bs : List Ty) :
    same (.union as) (.union bs) =
      (as.all (fun a => bs.any (same a)) && bs.all fun b => as.any fun a => same a b) := by
  rw [same, sameMembers_map]
  simp

/-- Types are compared with unions taken as sets. -/
instance : BEq Ty := ⟨same⟩

/-! ## Parts of types -/

/-- Whether nothing is known of the type. -/
def isAny : Ty → Bool
  | .any => true
  | _ => false

/-- Whether the type is a signature. -/
def isSignature : Ty → Bool
  | .fn .. => true
  | _ => false

/-- Whether the type is that of functions: a signature, or a function of which nothing is known. -/
def isFunctionLike : Ty → Bool
  | .fn .. => true
  | .generic name args => name = "Function" && args.isEmpty
  | _ => false

/-- Whether the type is a promise, with or without a known value. -/
def isPromise : Ty → Bool
  | .generic name _ => name = "Promise"
  | _ => false

/-- The type of the value that a promise stands for. -/
def promised? : Ty → Option Ty
  | .generic name args => if name = "Promise" then some (args.headD .any) else none
  | _ => none

/-- The type of the elements of an array. -/
def element? : Ty → Option Ty
  | .array element => some element
  | _ => none

end Ty

end ScriptTypes

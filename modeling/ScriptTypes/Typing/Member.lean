import ScriptTypes.Estimate.Union
import ScriptTypes.Typing.Builtin

/-!
# Members of known types

What a method call on a receiver returns, and what a property of it is. The arguments of a method
are looked at only where its result depends on them, by two questions that the caller answers: the
type of an argument, and the type that a callback returns.
-/

namespace ScriptTypes.Member

/-- What a property of a receiver is: one of its own shape, the length of a string or an array, or
a property of a named type. -/
def property? (receiver : Estimate) (name : String) : Option Estimate :=
  match receiver.property? name with
  | some value => some value
  | none =>
    match receiver.type with
    | .string => if name = "length" then some (.of .number .certain) else none
    | .array _ => if name = "length" then some (.of .number .certain) else none
    | .generic type _ =>
      (Builtin.genericProperties.lookup (type, name)).map fun known => .of known .methodReturn
    | _ => none

/-- Whether a method of a date reads or sets a part of it, by the start of its name. -/
def isDatePart (method : String) : Bool :=
  "get".toList.isPrefixOf method.toList || "set".toList.isPrefixOf method.toList

/-- What a method of a named type returns. -/
def genericMethod? (type method : String) : Option Ty :=
  if type = "RegExp" ∧ method = "exec" then
    some (.union [.generic "RegExpExecArray" [], .null])
  else if type = "Date" ∧ isDatePart method then some .number
  else Builtin.genericMethods.lookup (type, method)

section

variable {m : Type → Type} [Monad m] {α : Type}

/-- What a method of an array returns. -/
def arrayMethod? (infer : α → m Estimate) (callbackReturn : α → m (Option Estimate))
    (element : Ty) (method : String) (args : List α) : m (Option Ty) :=
  if method = "map" then do
    let returned ← args.head?.elim (pure none) callbackReturn
    pure (some (.array (Estimate.usableType returned)))
  else if method = "flatMap" then do
    let returned ← args.head?.elim (pure none) callbackReturn
    match Estimate.usableType returned with
    | .array inner => pure (some (.array inner))
    | other => pure (some (.array other))
  else if method ∈ Builtin.arrayReduce then
    match args with
    | _ :: initial :: _ => do pure (some (Estimate.usableType (some (← infer initial))))
    | _ => pure (some element)
  else if method = "flat" then
    match element with
    | .array inner => pure (some (.array inner))
    | _ => pure (some (.array element))
  else pure <|
    if method ∈ Builtin.arraySelf then some (.array element)
    else if method ∈ Builtin.arrayNumber then some .number
    else if method ∈ Builtin.arrayBoolean then some .boolean
    else if method ∈ Builtin.arrayString then some .string
    else if method ∈ Builtin.arrayVoid then some .void
    else if method ∈ Builtin.arrayElement then
      some (if element.isAny then .any else element.orUndefined)
    else none

/-- What a method of a receiver returns; nothing if that is not known. -/
def methodReturn? (infer : α → m Estimate) (callbackReturn : α → m (Option Estimate))
    (receiver : Estimate) (method : String) (args : List α) : m (Option Estimate) := do
  let result ←
    match receiver.type with
    | .string => pure (some ((Builtin.stringMethods.lookup method).getD .string))
    | .number => pure (Builtin.numberMethods.lookup method)
    | .array element => arrayMethod? infer callbackReturn element method args
    | .generic type _ => pure (genericMethod? type method)
    | _ => pure none
  pure <| result.bind fun type =>
    if type.isAny then none else some (.of type (min .methodReturn receiver.confidence))

end

end ScriptTypes.Member

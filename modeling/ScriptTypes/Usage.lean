import ScriptTypes.Syntax.Naming
import ScriptTypes.Syntax.Pattern
import ScriptTypes.TypeMap
import ScriptTypes.Typing.Builtin
import ScriptTypes.Typing.Operator

/-!
# Evidence from use

What the places where a name is used say about its type: operands of arithmetic and comparisons,
accesses by number, and methods that only strings or only arrays have.
-/

namespace ScriptTypes

/-- What a use says about the type of a name. -/
inductive UsageTag where
  | number
  | string
  | array
  | boolean
  | numberOrString
deriving DecidableEq, Repr

namespace UsageTag

/-- The name of a tag. -/
def name : UsageTag → String
  | number => "number"
  | string => "string"
  | array => "array"
  | boolean => "boolean"
  | numberOrString => "number|string"

/-- All tags, by name. -/
def all : List UsageTag := [array, boolean, number, numberOrString, string]

/-- The tag of a name. -/
def ofName? (text : String) : Option UsageTag := all.find? (·.name = text)

/-- What a comparison with a literal says. -/
def ofLiteral? : Kind → Option UsageTag
  | .number => some number
  | .string | .templateString => some string
  | .trueLiteral | .falseLiteral => some boolean
  | _ => none

end UsageTag

/-- The tags seen for each name, each tag once. -/
abbrev Usage := Table (List UsageTag)

namespace Place

/-! ## What one use says -/

/-- The operator of a binary expression. -/
def binaryOperator? (node : Node) : Option String :=
  if node.kind = .binaryExpression then (node.child? .operator).bind (·.text) else none

/-- What an operand of arithmetic is. A sum that is itself an operand of arithmetic is one of
numbers; any other may be one of strings. -/
def arithmeticTag (operator : String) (above : List Node) : UsageTag :=
  if operator ≠ "+" then .number
  else
    match above.find? (·.kind ≠ .parenthesizedExpression) with
    | some around =>
      if (binaryOperator? around).any (· ∈ Operator.arithmetic) then .number else .numberOrString
    | none => .numberOrString

/-- What an operand of a comparison is: what the literal on the other side is. -/
def comparisonTag? (operand binary : Node) : Option UsageTag :=
  let other := if binary.hasIn .left operand then binary.child? .right else binary.child? .left
  other.bind fun other => UsageTag.ofLiteral? other.unwrapParens.kind

/-- What an object is whose member is accessed by name. -/
def memberTag? (name : String) : Option UsageTag :=
  if name ∈ Builtin.onlyStringMethods then some .string
  else if name ∈ Builtin.onlyArrayMethods then some .array
  else none

/-- What the use of a name at a place says about its type. -/
def usage? (place : Place) : Option UsageTag :=
  match place.above with
  | [] => none
  | parent :: above =>
    match parent.kind with
    | .binaryExpression =>
      match binaryOperator? parent with
      | none => none
      | some operator =>
        if operator = "+" ∨ operator ∈ Operator.arithmetic then some (arithmeticTag operator above)
        else if operator ∈ Operator.comparison then comparisonTag? place.node parent
        else none
    | .subscriptExpression =>
      if parent.hasIn .object place.node ∧ (parent.child? .index).any (·.kind = .number) then
        some .array
      else none
    | .memberExpression =>
      if parent.hasIn .object place.node then parent.memberName?.bind memberTag? else none
    | _ => none

end Place

namespace Usage

/-- Notes a tag for a name. -/
def note (usage : Usage) (name : String) (tag : UsageTag) : Usage :=
  let tags := (usage.get? name).getD []
  usage.set name (if tag ∈ tags then tags else tags ++ [tag])

/-- Notes the use at a place, if it is one of a name that is tracked. -/
def observe (types : TypeMap) (usage : Usage) (place : Place) : Usage :=
  if place.node.kind = .identifier ∧ !place.isBinding then
    match place.node.text, place.usage? with
    | some name, some tag => if types.contains name then usage.note name tag else usage
    | _, _ => usage
  else usage

/-- The uses of the tracked names of a program. -/
def ofProgram (root : Place) (types : TypeMap) : Usage := root.preorder.foldl (observe types) .empty

/-- What the uses of a name say of its type, given what is held of it. Arrays and truth values
come first; a name used both as a number and as a string is held for a number with less
confidence; a sum alone says number or string, or number if the name is held for one. -/
def candidate? (tags : List UsageTag) (current : Option Estimate) : Option Estimate :=
  if .array ∈ tags then some (.of (.array .any) .usage)
  else if .boolean ∈ tags then some (.of .boolean .usage)
  else if .number ∈ tags ∧ .string ∈ tags then some (.of .number .usageNumericPlus)
  else if .number ∈ tags then some (.of .number .usage)
  else if .string ∈ tags then some (.of .string .usage)
  else if .numberOrString ∈ tags then
    if current.any (·.type == .number) then some (.of .number .usageNumericPlus)
    else some (.of (.union [.number, .string]) .usageAmbiguous)
  else none

/-- Offers what the uses of a name say, unless the name is held firmly already. -/
def foldName (types : TypeMap) (name : String) (tags : List UsageTag) : TypeMap :=
  let current := types.get? name
  if current.any (fun e => Confidence.usageCeiling ≤ e.confidence) then types
  else
    match candidate? tags current with
    | some candidate => types.assign name candidate false
    | none => types

/-- Offers what the uses of all names say, by name. -/
def fold (usage : Usage) (types : TypeMap) : TypeMap :=
  usage.sorted.foldl (fun types entry => foldName types entry.1 entry.2) types

end Usage

end ScriptTypes

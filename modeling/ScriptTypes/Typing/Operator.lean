import ScriptTypes.Estimate.Union

/-!
# Operators

The groups of operators and what each says about the type of its result.
-/

namespace ScriptTypes.Operator

/-- Operators on numbers only, the sum excepted. -/
def arithmetic : List String := ["-", "*", "/", "%", "**"]

/-- Operators on bits. -/
def bitwise : List String := ["&", "|", "^", "<<", ">>", ">>>"]

/-- Comparisons of two values. -/
def comparison : List String := ["==", "===", "!=", "!==", ">", "<", ">=", "<="]

/-- Questions about objects. -/
def relational : List String := ["in", "instanceof"]

/-- Operators whose result is one of the operands. -/
def logical : List String := ["&&", "||", "??"]

/-- Unary operators that give a number. -/
def numericUnary : List String := ["+", "-", "~"]

/-- The result of a unary operator, if it is known. -/
def unary? (operator : String) : Option Estimate :=
  if operator = "!" ∨ operator = "delete" then some (.of .boolean .certain)
  else if operator = "typeof" then some (.of .string .certain)
  else if operator = "void" then some (.of .undefined .certain)
  else if operator ∈ numericUnary then some (.of .number .certain)
  else none

/-- The sum of two operands: a string if either is one, a number if both are. -/
def plus (l r : Estimate) : Estimate :=
  if l.type == .string || r.type == .string then .of .string .operator
  else if l.type == .number && r.type == .number then .of .number .operator
  else .of .any .ambiguousPlus

/-- The result of a binary operator. -/
def binary (operator : String) (l r : Estimate) : Estimate :=
  if operator ∈ logical then l.unionOf r
  else if operator ∈ comparison ∨ operator ∈ relational then .of .boolean .operator
  else if operator ∈ arithmetic ∨ operator ∈ bitwise then .of .number .operator
  else if operator = "+" then plus l r
  else .unknownCall

end ScriptTypes.Operator

import ScriptTypes.Typing.Rules

/-!
# Structural typing

The type of an expression as far as the expression itself and the standard library tell. Names,
functions and members of unknown objects stay unknown.
-/

namespace ScriptTypes.Typing

/-- The structural treatment of names, functions, calls and members. -/
def structuralForms {m : Type → Type} [Monad m] (infer : Node → m Estimate) : Forms m where
  infer := infer
  name _ := pure .unknown
  functionLiteral _ := pure (.of .function .functionLiteral)
  call := knownCall infer
  member node := pure ((staticProperty? node).getD .unknown)
  subscript _ := pure .unknown

/-- The structural type of an expression, with room for so many nested expressions. -/
def structuralWithin : Nat → Node → Id Estimate
  | 0, _ => Estimate.unknown
  | room + 1, node => (structuralForms (structuralWithin room)).typeOf node.unwrapParens

/-- The structural type of an expression. -/
def structural (node : Node) : Estimate := (structuralWithin maxNesting node).run

end ScriptTypes.Typing

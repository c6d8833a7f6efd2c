import ScriptTypes.Syntax.Node

/-!
# Trees from tables

A tree may come as a table with one row for each node: the row of its parent, which comes before
it, and the bytes of the source that it covers. Rows are labels.
-/

namespace ScriptTypes

/-- One node of a table. The span is in bytes of the source; without one the node has no text. -/
structure Row where
  parent : Option Nat
  kind : Kind
  field : Option Field
  named : Bool
  span : Option (Nat × Nat)

namespace Row

/-- The text of a span of a source. -/
def textOf (source : ByteArray) (span : Nat × Nat) : Option String :=
  String.fromUTF8? (source.extract span.1 span.2)

/-- Builds the node of a row, with the children gathered so far, and hands it to its parent. The
rows are taken from the last to the first, so that a node's children are complete when its turn
comes, and gathered in order. -/
def attach (source : ByteArray) (gathered : Array (List Node)) (label : Nat) (row : Row) :
    Node × Array (List Node) :=
  let node : Node :=
    ⟨label, row.kind, row.field, row.named, row.span.bind (textOf source), gathered.getD label []⟩
  match row.parent with
  | some parent => (node, gathered.modify parent (node :: ·))
  | none => (node, gathered)

/-- The tree of a table: the node of its first row, with all that belongs to it. -/
def tree? (source : String) (rows : List Row) : Option Node :=
  let bytes := source.toUTF8
  (rows.zipIdx.foldr
    (fun (row, label) (_, gathered) =>
      let (node, gathered) := attach bytes gathered label row
      (some node, gathered))
    (none, Array.replicate rows.length [])).1

end Row

end ScriptTypes

import ScriptTypes.Syntax.Node

/-!
# Walks that leave parts out

A walk goes through a tree from a node downward, each node before its children. It does not enter
nodes of a boundary kind, the first node excepted, and does not go below nodes whose handler says
so. A node is handled once, so a handler that keeps a memory of its own is one that replies by node.
-/

namespace ScriptTypes

/-- What a handler says of the nodes below the one it was called on. One that says nothing lets the
walk proceed. -/
inductive Reply where
  | proceed
  | skip
deriving DecidableEq, Repr

/-- Which kinds of nodes a walk handles and how, and which it does not enter. -/
structure Walk where
  handler : Kind → Option (Node → Reply)
  isBoundary : Kind → Bool

namespace Walk

variable (walk : Walk)

/-- Whether the node has a handler that says to skip what is below it. -/
def skips (node : Node) : Bool := (walk.handler node.kind).any fun handler => handler node = .skip

/-- Puts a node that has a handler in front of others. -/
def noting (node : Node) (others : List Node) : List Node :=
  if (walk.handler node.kind).isSome then node :: others else others

mutual
/-- The nodes handled from a node downward, unless its kind is a boundary. -/
def handledBelow : Node → List Node
  | node@⟨_, kind, _, _, _, children⟩ =>
    if walk.isBoundary kind then []
    else walk.noting node (if walk.skips node then [] else handledAll children)

/-- The nodes handled from several nodes downward. -/
def handledAll : List Node → List Node
  | [] => []
  | node :: nodes => handledBelow node ++ handledAll nodes
end

theorem handledAll_eq_flatMap (nodes : List Node) :
    walk.handledAll nodes = nodes.flatMap walk.handledBelow := by
  induction nodes with
  | nil => rfl
  | cons node nodes ih => simp [handledAll, ih]

theorem handledBelow_eq (node : Node) :
    walk.handledBelow node =
      if walk.isBoundary node.kind then []
      else walk.noting node
        (if walk.skips node then [] else node.children.flatMap walk.handledBelow) := by
  obtain ⟨_, kind, _, _, _, children⟩ := node
  rw [handledBelow, handledAll_eq_flatMap]

/-- The nodes that a walk from a node handles, in order. -/
def handled (root : Node) : List Node :=
  walk.noting root (if walk.skips root then [] else walk.handledAll root.children)

end Walk

end ScriptTypes

import ScriptTypes.Syntax.Node

/-!
# Nodes in their surroundings

A place is a node together with its ancestors, the nearest first. What a node stands for may
depend on where it stands; everything else needs the node alone.
-/

namespace ScriptTypes

/-- A node with its ancestors, the nearest first. -/
structure Place where
  node : Node
  above : List Node

namespace Place

/-- The parent of the node. -/
def parent? (place : Place) : Option Node := place.above.head?

mutual
/-- The places from a node downward, each before its children, given the node's ancestors. -/
def preorderFrom (above : List Node) : Node → List Place
  | node@⟨_, _, _, _, _, children⟩ => ⟨node, above⟩ :: preorderFromAll (node :: above) children

/-- The places of several nodes with the same ancestors. -/
def preorderFromAll (above : List Node) : List Node → List Place
  | [] => []
  | node :: nodes => preorderFrom above node ++ preorderFromAll above nodes
end

mutual
theorem map_node_preorderFrom (above : List Node) :
    ∀ node : Node, (preorderFrom above node).map (·.node) = node.preorder
  | ⟨_, _, _, _, _, children⟩ => by
    simp [preorderFrom, Node.preorder, map_node_preorderFromAll _ children]

theorem map_node_preorderFromAll (above : List Node) :
    ∀ nodes : List Node, (preorderFromAll above nodes).map (·.node) = Node.preorderAll nodes
  | [] => rfl
  | node :: nodes => by
    simp [preorderFromAll, Node.preorderAll, map_node_preorderFrom _ node,
      map_node_preorderFromAll _ nodes]
end

/-- The place and all below it, each before its children. -/
def preorder (place : Place) : List Place := preorderFrom place.above place.node

/-- The nodes of the places are those of the tree, in the same order. -/
theorem map_node_preorder (place : Place) : place.preorder.map (·.node) = place.node.preorder :=
  map_node_preorderFrom place.above place.node

end Place

end ScriptTypes

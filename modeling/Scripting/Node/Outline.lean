import Scripting.Node

/-!
# Outlines of trees

A tree can be written down as the row of its nodes in the order of the source, each with its depth,
and be built again from such a row.
-/

namespace Scripting.Node

mutual

/-- The nodes of a tree, each before those below it, with their depths. -/
def outline (depth : Nat) : Node → List (Nat × Node)
  | ⟨kind, literal, position, children⟩ =>
    (depth, ⟨kind, literal, position, children⟩) :: outlines (depth + 1) children

/-- The outlines of several trees, one after the other. -/
def outlines (depth : Nat) : List Node → List (Nat × Node)
  | [] => []
  | node :: rest => outline depth node ++ outlines depth rest

end

/-- The trees with the given outline. The children of the nodes listed are not looked at: what is
below a node are the entries of greater depth that follow it. -/
def ofOutline : List (Nat × Node) → List (Nat × Node)
  | [] => []
  | (depth, node) :: rest =>
    let trees := ofOutline rest
    let below := trees.takeWhile (depth < ·.1)
    (depth, { node with children := below.map Prod.snd }) :: trees.drop below.length

end Scripting.Node

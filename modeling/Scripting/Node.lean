import Scripting.Position
import Scripting.Token.Kind

/-!
# Syntax trees

A node has the kind, the text and the place of the token that made it. The type admits trees of any
shape; the parser builds only some of them.

A node within a tree is named by its path, the numbers of the children on the way from the root.
-/

namespace Scripting

/-- A node of a syntax tree with all that is below it. -/
structure Node where
  /-- What the node is. -/
  kind : Kind
  /-- The text of the node. -/
  literal : String
  /-- Where the token of the node starts. -/
  position : Position
  /-- The nodes directly below. -/
  children : List Node
  deriving Repr, Inhabited

/-- The way to a node of a tree: the index of each child taken, the last one first. -/
abbrev Path := List Nat

namespace Node

/-- The members of a list in brackets or with commas, or the node itself. -/
def listed (node : Node) : List Node :=
  match node.kind with
  | .comma | .leftParen => node.children
  | _ => [node]

/-- A list gives its members and another node itself. -/
theorem listed_cases (node : Node) :
    (node.kind = .comma ∨ node.kind = .leftParen) ∧ node.listed = node.children ∨
      node.kind ≠ .comma ∧ node.kind ≠ .leftParen ∧ node.listed = [node] := by
  unfold listed
  split
  · next hkind => exact Or.inl ⟨Or.inl hkind, rfl⟩
  · next hkind => exact Or.inl ⟨Or.inr hkind, rfl⟩
  · next hcomma hparen => exact Or.inr ⟨hcomma, hparen, rfl⟩

end Node

end Scripting

import Scripting.Node
import Scripting.Text.Quoted

/-!
# Trees as s-expressions

A leaf is written as its text. A node with children is written in brackets, its text first. A text
that holds a bracket or a blank is quoted.
-/

namespace Scripting.Node

/-- Would the text be taken apart if it stood alone? -/
def needsQuotes (text : List Char) : Bool :=
  text.any fun c => c = '(' || c = ')' || Text.isBlank c

/-- The text of a node as it stands in an s-expression. -/
def atom (text : List Char) : List Char :=
  if needsQuotes text then Text.quoted text else text

mutual

/-- The characters of the s-expression of a tree. -/
def render : Node → List Char
  | ⟨_, literal, _, []⟩ => atom literal.toList
  | ⟨_, literal, _, child :: rest⟩ =>
    '(' :: atom literal.toList ++ ' ' :: render child ++ renderMore rest ++ [')']

/-- The s-expressions of several trees, each with a blank in front. -/
def renderMore : List Node → List Char
  | [] => []
  | node :: rest => ' ' :: render node ++ renderMore rest

end

/-- The s-expression of a tree. -/
def sexpr (node : Node) : String :=
  String.ofList node.render

end Scripting.Node

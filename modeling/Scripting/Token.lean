import Scripting.Position
import Scripting.Text.Quoted
import Scripting.Token.Kind

/-!
# Tokens

A token is a kind, a text and the place where it starts. The text of a string token is the string
that it denotes, with its escapes resolved.
-/

namespace Scripting

/-- A token of a source. -/
structure Token where
  /-- What the token is. -/
  kind : Kind
  /-- The text of the token; for a string, the characters that it denotes. -/
  lexeme : String
  /-- Where the token starts. -/
  position : Position
  deriving DecidableEq, Repr, Inhabited

namespace Token

/-- A text moved to the right end of a field of the given width. -/
def flushRight (width : Nat) (text : String) : String :=
  String.ofList (List.replicate (width - text.length) ' ') ++ text

/-- A text at the left end of a field of the given width. -/
def flushLeft (width : Nat) (text : String) : String :=
  text ++ String.ofList (List.replicate (width - text.length) ' ')

/-- A token on a line of its own: line, column, kind and quoted text, in columns. -/
def line (t : Token) : String :=
  flushRight 3 (toString t.position.line) ++ ", " ++ flushRight 3 (toString t.position.column)
    ++ " " ++ flushLeft 10 t.kind.name ++ " " ++ String.ofList (Text.quoted t.lexeme.toList)

end Token

end Scripting

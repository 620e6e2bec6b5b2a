import Scripting.Token
import Scripting.Token.Lexeme

/-!
# From a source to its tokens

Scanning has two steps. `lexemes` cuts the source into lexemes and gives each its place. `layout`
turns the row of lexemes into tokens, drops blanks, and closes a line by a semicolon if the last
token of the line can end an expression. The last token is always the end of the input.

A source with a fault anywhere has no tokens: it has the list of all its faults.
-/

namespace Scripting

/-- A fault of a source and the start of the lexeme that has it. -/
structure ScanError where
  /-- What is wrong. -/
  fault : Fault
  /-- Where the lexeme starts. -/
  position : Position
  deriving DecidableEq, Repr

/-- The wording of an error with its place. -/
def ScanError.message (e : ScanError) : String :=
  e.position.report e.fault.message

/-- A lexeme and the place where it starts. -/
structure PlacedLexeme where
  /-- Where the lexeme starts. -/
  position : Position
  /-- The lexeme. -/
  lexeme : Lexeme
  deriving DecidableEq, Repr

namespace PlacedLexeme

/-- The faults of a lexeme, at its start. -/
def errors (l : PlacedLexeme) : List ScanError :=
  match l.lexeme with
  | .faulty faults => faults.map (⟨·, l.position⟩)
  | _ => []

end PlacedLexeme

namespace Token

/-- The lexemes of a text. `position` is the place of its first character, and the first `inside`
characters belong to the lexeme before. -/
def lexemes (position : Position) : (inside : Nat) → List Char → List PlacedLexeme
  | _, [] => [⟨position, .finish⟩]
  | inside + 1, _ :: rest => lexemes position.right inside rest
  | 0, c :: rest =>
    match Lexeme.read c rest with
    | (.newline, width) => ⟨position, .newline⟩ :: lexemes position.below width rest
    | (lexeme, width) => ⟨position, lexeme⟩ :: lexemes position.right width rest

/-- The semicolon that closes a line after a token of kind `last`, if there was one and it can end
an expression. -/
def closing (position : Position) (last : Option Kind) : List Token :=
  if last.any Kind.endsExpression then [⟨.semicolon, Kind.semicolon.name, position⟩] else []

/-- The tokens of a row of lexemes. `last` is the kind of the last token before them on the same
line. -/
def layout : (last : Option Kind) → List PlacedLexeme → List Token
  | _, [] => []
  | last, ⟨position, lexeme⟩ :: rest =>
    match lexeme with
    | .token kind text => ⟨kind, text, position⟩ :: layout (some kind) rest
    | .newline => closing position last ++ layout none rest
    | .finish => closing position last ++ ⟨.finish, "", position⟩ :: layout none rest
    | .blank | .faulty _ => layout last rest

/-- The tokens of a source, or all its faults. -/
def scan (source : String) : Except (List ScanError) (List Token) :=
  let row := lexemes .start 0 source.toList
  match row.flatMap PlacedLexeme.errors with
  | [] => .ok (layout none row)
  | errors => .error errors

end Token

end Scripting

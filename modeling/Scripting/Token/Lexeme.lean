import Scripting.Text.Alphabetic
import Scripting.Token.Kind

/-!
# Lexemes

A source is a row of lexemes: tokens, blanks, line ends, and stretches that are neither. `read`
takes the lexeme at the head of a text. It is given the first character and the rest, and says how
many characters of the rest belong to the lexeme, so a lexeme is never empty.

Faults are all found on the way; reading goes on after a lexeme that has some.
-/

namespace Scripting

/-- What is wrong with a stretch of source. -/
inductive Fault where
  /-- A character that starts no token. -/
  | unexpectedCharacter (c : Char)
  /-- A string that its line or the source ends. -/
  | unterminatedString
  /-- A backslash in a string before a character that has no escape. -/
  | unknownEscape (c : Char)
  deriving DecidableEq, Repr

/-- The wording of a fault. -/
def Fault.message : Fault → String
  | unexpectedCharacter c => "Unexpected character '" ++ c.toString ++ "'."
  | unterminatedString => "Unterminated string."
  | unknownEscape c => "Unknown escape sequence '\\" ++ c.toString ++ "'."

/-- A stretch of source that is read as one. -/
inductive Lexeme where
  | token (kind : Kind) (text : String)
  /-- A space, a tab, a carriage return or a comment. -/
  | blank
  | newline
  /-- What follows the last character. -/
  | finish
  /-- A stretch with at least one fault, the faults in the order of their characters. -/
  | faulty (faults : List Fault)
  deriving DecidableEq, Repr

namespace Lexeme

/-- The lexeme of a token that is always spelled the same. -/
def symbol (kind : Kind) : Lexeme :=
  token kind kind.name

/-- Can the character start a name? -/
def startsName (c : Char) : Bool :=
  Text.isAlphabetic c || c = '_'

/-- Can the character go on with a name? -/
def continuesName (c : Char) : Bool :=
  startsName c || c.isDigit

/-- The character that a backslash before `c` stands for. -/
def unescape? (c : Char) : Option Char :=
  match c with
  | 'n' => some '\n'
  | 't' => some '\t'
  | 'r' => some '\r'
  | '0' => some '\x00'
  | '"' => some '"'
  | '\\' => some '\\'
  | _ => none

/-- A string after its opening quote. -/
structure StringBody where
  /-- The characters that the string denotes. -/
  text : List Char
  /-- The faults of the string, in order. -/
  faults : List Fault
  /-- How many characters of the source belong to the string. -/
  width : Nat

/-- Reads a string after its opening quote. A line end closes it as a fault, and stays. A backslash
takes the character after it whatever it is; at the end of the source that is the null character. -/
def readString : List Char → StringBody
  | [] => ⟨[], [.unterminatedString], 0⟩
  | '\n' :: _ => ⟨[], [.unterminatedString], 0⟩
  | '"' :: _ => ⟨[], [], 1⟩
  | ['\\'] => ⟨[], [.unknownEscape '\x00', .unterminatedString], 1⟩
  | '\\' :: c :: rest =>
    let body := readString rest
    match unescape? c with
    | some d => ⟨d :: body.text, body.faults, body.width + 2⟩
    | none => ⟨c :: body.text, .unknownEscape c :: body.faults, body.width + 2⟩
  | c :: rest =>
    let body := readString rest
    ⟨c :: body.text, body.faults, body.width + 1⟩

/-- The lexeme of a string: a token if it has no fault. -/
def ofStringBody (body : StringBody) : Lexeme :=
  match body.faults with
  | [] => token .string (String.ofList body.text)
  | faults => faulty faults

/-- Reads a number that starts with the digit `c`. A point belongs to it only with a digit behind
it. -/
def readNumber (c : Char) (rest : List Char) : Lexeme × Nat :=
  let whole := rest.takeWhile Char.isDigit
  match rest.drop whole.length with
  | '.' :: d :: after =>
    if d.isDigit then
      let fraction := d :: after.takeWhile Char.isDigit
      (token .float (String.ofList (c :: whole ++ '.' :: fraction)),
        whole.length + 1 + fraction.length)
    else (token .int (String.ofList (c :: whole)), whole.length)
  | _ => (token .int (String.ofList (c :: whole)), whole.length)

/-- Reads a name or a keyword that starts with `c`. -/
def readWord (c : Char) (rest : List Char) : Lexeme × Nat :=
  let more := rest.takeWhile continuesName
  let word := String.ofList (c :: more)
  (token (Kind.ofWord word) word, more.length)

/-- A symbol of two characters if `next` follows, otherwise one of a single character. -/
def either (next : Char) (long short : Kind) (rest : List Char) : Lexeme × Nat :=
  if rest.head? = some next then (symbol long, 1) else (symbol short, 0)

/-- A symbol of two characters, the first of which means nothing without the second. -/
def required (c next : Char) (long : Kind) (rest : List Char) : Lexeme × Nat :=
  if rest.head? = some next then (symbol long, 1) else (faulty [.unexpectedCharacter c], 0)

/-- The lexeme that starts with `c`, and how many characters of `rest` belong to it. -/
def read (c : Char) (rest : List Char) : Lexeme × Nat :=
  match c with
  | '(' => (symbol .leftParen, 0)
  | ')' => (symbol .rightParen, 0)
  | '[' => (symbol .leftBracket, 0)
  | ']' => (symbol .rightBracket, 0)
  | '{' => (symbol .leftBrace, 0)
  | '}' => (symbol .rightBrace, 0)
  | ',' => (symbol .comma, 0)
  | '.' => (symbol .period, 0)
  | ';' => (symbol .semicolon, 0)
  | '-' => (symbol .minus, 0)
  | '*' => (symbol .times, 0)
  | '/' => (symbol .divide, 0)
  | '%' => (symbol .modulo, 0)
  | '+' => either '=' .accumulate .plus rest
  | '!' => either '=' .notEqual .not rest
  | '<' => either '=' .lessEqual .less rest
  | '>' => either '=' .greaterEqual .greater rest
  | ':' => required c '=' .assign rest
  | '?' => required c '=' .default rest
  | '=' => required c '=' .equal rest
  | '&' => required c '&' .and rest
  | '|' => required c '|' .or rest
  | '#' => (blank, (rest.takeWhile (· ≠ '\n')).length)
  | ' ' | '\r' | '\t' => (blank, 0)
  | '\n' => (newline, 0)
  | '"' => let body := readString rest; (ofStringBody body, body.width)
  | c =>
    if c.isDigit then readNumber c rest
    else if startsName c then readWord c rest
    else (faulty [.unexpectedCharacter c], 0)

end Lexeme

end Scripting

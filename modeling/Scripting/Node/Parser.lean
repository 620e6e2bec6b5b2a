import Scripting.Node
import Scripting.Token

/-!
# From tokens to a tree

Expressions are read by precedence. A token has a binding power to its left; an expression read at
some power takes in every operator that binds more strongly. `start` reads what a token can begin,
`extend` what it can add to an expression on its left, and `expression` ties the two together.

Each reader is given the reader of expressions as an argument, so that all recursion through nested
expressions goes through `expression`, where the bound on the depth falls. Each expression takes a
token, so the number of tokens bounds both the depth and the length of every list.
-/

namespace Scripting

/-! ## Errors -/

/-- What the parser was looking for. -/
inductive Expectation where
  | separator
  | groupEnd
  | argumentsEnd
  | indexEnd
  | fieldName
  | parametersStart
  | parametersEnd
  | channelsEnd
  | blockStart
  | blockEnd
  | moreInput
  | expression
  deriving DecidableEq, Repr

/-- The wording of an expectation that was not met. -/
def Expectation.message : Expectation → String
  | separator => "Expect newline or ';' after expression"
  | groupEnd => "Expect ')' after expression"
  | argumentsEnd => "Expect ')' after arguments"
  | indexEnd => "Expect ']' after index"
  | fieldName => "Expect field name after '.'"
  | parametersStart => "Expect '(' after 'func'"
  | parametersEnd => "Expect ')' after parameters"
  | channelsEnd => "Expect ']' after channels"
  | blockStart => "Expect '\x7b' before block"
  | blockEnd => "Expect '\x7d' after block"
  | moreInput => "Unexpected end of input"
  | expression => "Expect expression"

/-- A token that does not fit. -/
structure ParseError where
  /-- What was looked for. -/
  expectation : Expectation
  /-- The token found. -/
  found : Token
  deriving DecidableEq, Repr

namespace ParseError

/-- Where the token stands. -/
def position (e : ParseError) : Position :=
  e.found.position

/-- The wording of the error with its place. -/
def message (e : ParseError) : String :=
  let place := if e.found.kind = .finish then ", at end" else ", at '" ++ e.found.lexeme ++ "'"
  e.position.report (e.expectation.message ++ place)

end ParseError

/-! ## Token streams -/

/-- The tokens that are left, and the end of the input behind them. -/
structure Stream where
  /-- The tokens before the end; none of them is an end itself. -/
  rest : List Token
  /-- The end of the input. -/
  finish : Token
  deriving Repr

namespace Stream

/-- A row of tokens up to its first end. A row without one ends at its last token. -/
def ofTokens (tokens : List Token) : Stream where
  rest := tokens.takeWhile (·.kind ≠ .finish)
  finish := (tokens.find? (·.kind = .finish)).getD
    ⟨.finish, "", (tokens.getLast?.map Token.position).getD .nowhere⟩

/-- The next token. At the end it is the end, however often it is asked for. -/
def head (s : Stream) : Token :=
  s.rest.headD s.finish

/-- Is the next token of the kind given? -/
def startsWith (s : Stream) (kind : Kind) : Bool :=
  s.rest.head?.any (·.kind = kind)

/-- The stream without its next token. -/
def tail (s : Stream) : Stream :=
  { s with rest := s.rest.tail }

end Stream

/-! ## Readers -/

/-- A reader takes tokens from a stream and gives a result, or stops. -/
abbrev ParseM := StateT Stream (Except (Stop ParseError))

namespace ParseM

/-- Stops because the token found is not what was looked for. -/
def fail {α : Type} (expectation : Expectation) (found : Token) : ParseM α :=
  throw (.error ⟨expectation, found⟩)

/-- Stops because the bound was reached. -/
def exhausted {α : Type} : ParseM α :=
  throw .outOfFuel

/-- The next token, which stays. -/
def peek : ParseM Token := return (← get).head

/-- Takes the next token. -/
def next : ParseM Token := do
  let s ← get
  set s.tail
  return s.head

/-- Is the next token of the kind given? It stays. -/
def startsWith (kind : Kind) : ParseM Bool := return (← get).startsWith kind

/-- Takes the next token if it is of the kind given, and says whether it was. -/
def accept (kind : Kind) : ParseM Bool := do
  let s ← get
  if s.startsWith kind then
    set s.tail
    return true
  else return false

/-- Takes the next token, which must be of the kind given. -/
def expect (kind : Kind) (expectation : Expectation) : ParseM Token := do
  let s ← get
  if s.startsWith kind then
    set s.tail
    return s.head
  else fail expectation s.head

/-- Takes all semicolons that come next. -/
def skipSemicolons : ParseM Unit :=
  modify fun s => { s with rest := s.rest.dropWhile (·.kind = .semicolon) }

end ParseM

namespace Kind

/-! ## Binding powers -/

/-- How strongly a return binds its operand. -/
def returnPower : Nat := 6

/-- How strongly a comma binds. The items of a list are read at this power. -/
def commaPower : Nat := 8

/-- How strongly a sign or a negation binds its operand. -/
def signPower : Nat := 18

/-- How strongly a token binds to its left. The powers are even, so that the right side of an
assignment, which groups to the right, can be read just below its power. -/
def bindingPower : Kind → Nat
  | assign | default | accumulate => 4
  | comma => commaPower
  | and | or => 10
  | equal | notEqual | less | lessEqual | greater | greaterEqual => 12
  | plus | minus => 14
  | times | divide | modulo => 16
  | leftParen | leftBracket => 20
  | period => 22
  | _ => 0

end Kind

namespace Node

open ParseM

/-- The node of a token. -/
def ofToken (token : Token) (children : List Node) : Node :=
  ⟨token.kind, token.lexeme, token.position, children⟩

/-! ## Lists and blocks -/

/-- Reads statements up to the closing kind, or up to the end if there is none. -/
def statements (expr : Nat → ParseM Node) (closer : Option Kind) : (fuel : Nat) →
    ParseM (List Node)
  | 0 => exhausted
  | fuel + 1 => do
    skipSemicolons
    let s ← get
    if closer.any s.startsWith || s.rest.isEmpty then return []
    let statement ← expr 0
    if !closer.any (← get).startsWith then
      discard (expect .semicolon .separator)
    return statement :: (← statements expr closer fuel)

/-- Reads one item or more with commas between them. -/
def items (expr : Nat → ParseM Node) : (fuel : Nat) → ParseM (List Node)
  | 0 => exhausted
  | fuel + 1 => do
    let item ← expr Kind.commaPower
    if ← accept .comma then return item :: (← items expr fuel)
    else return [item]

/-- Reads items up to the closing kind, and the token that closes them. -/
def enclosed (expr : Nat → ParseM Node) (closer : Kind) (expectation : Expectation) (fuel : Nat) :
    ParseM (List Node) := do
  let children ← if ← startsWith closer then pure [] else items expr fuel
  discard (expect closer expectation)
  return children

/-- Reads a block in braces. -/
def block (expr : Nat → ParseM Node) (fuel : Nat) : ParseM Node := do
  discard (expect .leftBrace .blockStart)
  let first ← peek
  let children ← statements expr (some .rightBrace) fuel
  discard (expect .rightBrace .blockEnd)
  return ⟨.statements, Kind.statements.name, first.position, children⟩

/-! ## What a token can begin -/

/-- Reads the branches of a conditional behind its first block. -/
def alternatives (expr : Nat → ParseM Node) (depth : Nat) : (fuel : Nat) → ParseM (List Node)
  | 0 => exhausted
  | fuel + 1 => do
    if ← accept .elseWord then
      if ← accept .ifWord then
        let condition ← expr 0
        let body ← block expr depth
        return condition :: body :: (← alternatives expr depth fuel)
      else return [← block expr depth]
    else return []

/-- Reads a function behind its keyword: parameters, channels if there are any, and a body. -/
def function (expr : Nat → ParseM Node) (fuel : Nat) : ParseM (List Node) := do
  let bracket ← expect .leftParen .parametersStart
  let parameters ← enclosed expr .rightParen .parametersEnd fuel
  let first ← peek
  let channels ← if ← accept .leftBracket then enclosed expr .rightBracket .channelsEnd fuel
    else pure []
  let body ← block expr fuel
  return [⟨.leftParen, "params", bracket.position, parameters⟩,
    ⟨.leftBracket, "channels", first.position, channels⟩, body]

/-- Does a token of this kind show that a return has no operand? -/
def endsReturn : Kind → Bool
  | .semicolon | .rightBrace | .rightParen | .finish => true
  | _ => false

/-- Reads the expression that begins with a token. -/
def start (expr : Nat → ParseM Node) (fuel : Nat) (token : Token) : ParseM Node := do
  match token.kind with
  | .identifier | .int | .float | .string | .trueWord | .falseWord | .nilWord | .breakWord
  | .continueWord => return ofToken token []
  | .not | .minus => return ofToken token [← expr Kind.signPower]
  | .leftParen =>
    if ← accept .rightParen then return ofToken token []
    else
      let inner ← expr 0
      discard (expect .rightParen .groupEnd)
      return inner
  | .returnWord =>
    if endsReturn (← peek).kind then return ofToken token []
    else return ofToken token [← expr Kind.returnPower]
  | .externWord => return ofToken token (← items expr fuel)
  | .funcWord => return ofToken token (← function expr fuel)
  | .ifWord =>
    let condition ← expr 0
    let body ← block expr fuel
    return ofToken token (condition :: body :: (← alternatives expr fuel fuel))
  | .whileWord =>
    let condition ← expr 0
    return ofToken token [condition, ← block expr fuel]
  | .finish => fail .moreInput token
  | _ => fail .expression token

/-! ## What a token can add -/

/-- The application of an expression to arguments. On a field it is a method call. -/
def applied (paren : Token) (callee : Node) (arguments : List Node) : Node :=
  match callee with
  | ⟨.period, _, _, [object, method]⟩ =>
    ⟨.methodCall, Kind.methodCall.name, paren.position, object :: method :: arguments⟩
  | _ => ⟨.application, Kind.application.name, paren.position, callee :: arguments⟩

/-- The items of a comma list so far. -/
def commaItems (left : Node) : List Node :=
  if left.kind = .comma then left.children else [left]

/-- Reads what a token adds to the expression on its left. -/
def extend (expr : Nat → ParseM Node) (fuel : Nat) (token : Token) (left : Node) : ParseM Node := do
  match token.kind with
  | .assign | .default | .accumulate =>
    return ofToken token [left, ← expr (token.kind.bindingPower - 1)]
  | .comma => return ofToken token (commaItems left ++ [← expr Kind.commaPower])
  | .leftParen => return applied token left (← enclosed expr .rightParen .argumentsEnd fuel)
  | .leftBracket =>
    let index ← expr 0
    discard (expect .rightBracket .indexEnd)
    return ofToken token [left, index]
  | .period =>
    let field ← expect .identifier .fieldName
    return ofToken token [left, ofToken field []]
  | kind => return ofToken token [left, ← expr kind.bindingPower]

/-- Extends an expression as long as the next token binds more strongly than `power`. -/
def operators (expr : Nat → ParseM Node) (depth power : Nat) : (fuel : Nat) → Node → ParseM Node
  | 0, _ => exhausted
  | fuel + 1, left => do
    if power < (← peek).kind.bindingPower then
      let token ← next
      operators expr depth power fuel (← extend expr depth token left)
    else return left

/-! ## Expressions and programs -/

/-- Reads the longest expression whose operators all bind more strongly than `power`. -/
def expression : (fuel : Nat) → (power : Nat) → ParseM Node
  | 0, _ => exhausted
  | fuel + 1, power => do
    let token ← next
    let left ← start (expression fuel) fuel token
    operators (expression fuel) fuel power fuel left

/-- Reads statements up to the end of the input. -/
def program (fuel : Nat) : ParseM Node := do
  let first ← peek
  let children ← statements (expression fuel) none fuel
  return ⟨.statements, Kind.statements.name, first.position, children⟩

/-- The tree of a row of tokens. -/
def ofTokens (tokens : List Token) : Except (Stop ParseError) Node :=
  (program (tokens.length + 2)).run' (Stream.ofTokens tokens)

end Node

end Scripting

import Scripting.Node.Parser

/-!
# The parser on an indexed row

The readers of trees take their tokens off a list that ends where the input does. Here the same
rules run on the whole row, which nothing is taken off, with the index of the next token. Each look
at the row is checked: an index outside stops the parser. An end is never passed, so it is found
again however often a reader asks.
-/

namespace Scripting

/-- Why a parser on an indexed row gives no tree. -/
inductive Halt where
  /-- The index was outside the row. -/
  | outside
  /-- The readers stopped. -/
  | stop (reason : Stop ParseError)
  deriving DecidableEq, Repr

/-- A row of tokens and the index of the next one. -/
structure Cursor where
  /-- All tokens, also those taken already and those behind the first end. -/
  row : List Token
  /-- Where the next token is. -/
  index : Nat
  deriving Repr

/-- A reader moves the index along a row and gives a result, or stops. -/
abbrev CursorM := StateT Cursor (Except Halt)

namespace Cursor

/-- The first token of a row. A row whose last token is not an end gets one in its place. -/
def ofTokens (tokens : List Token) : Cursor where
  row :=
    if tokens.getLast?.any (·.kind = .finish) then tokens
    else tokens ++ [⟨.finish, "", (tokens.getLast?.map Token.position).getD .nowhere⟩]
  index := 0

/-! ## Looking and moving -/

/-- Stops because the bound was reached. -/
def exhausted {α : Type} : CursorM α :=
  throw (.stop .outOfFuel)

/-- Stops because the token found is not what was looked for. -/
def fail {α : Type} (expectation : Expectation) (found : Token) : CursorM α :=
  throw (.stop (.error ⟨expectation, found⟩))

/-- The token at the index. -/
def peek : CursorM Token := do
  let c ← get
  match c.row[c.index]? with
  | some token => return token
  | none => throw .outside

/-- Is the end of the input at the index? -/
def atEnd : CursorM Bool := return (← peek).kind = .finish

/-- The token at the index, which moves on unless the token is an end. -/
def next : CursorM Token := do
  let token ← peek
  if token.kind ≠ .finish then modify fun c => { c with index := c.index + 1 }
  return token

/-- Is a token of the kind given at the index? -/
def check (kind : Kind) : CursorM Bool := do
  let token ← peek
  return token.kind ≠ .finish && token.kind = kind

/-- Takes the next token if it is of the kind given, and says whether it was. -/
def accept (kind : Kind) : CursorM Bool := do
  if ← check kind then
    discard next
    return true
  else return false

/-- Takes the next token, which must be of the kind given. -/
def expect (kind : Kind) (expectation : Expectation) : CursorM Token := do
  if ← check kind then next
  else fail expectation (← peek)

/-- Takes all semicolons that come next. -/
def skipSemicolons : (fuel : Nat) → CursorM Unit
  | 0 => exhausted
  | fuel + 1 => do if ← accept .semicolon then skipSemicolons fuel

/-- Does a list of statements end at the index because of its closing kind? -/
def closes : (closer : Option Kind) → CursorM Bool
  | none => return false
  | some kind => check kind

/-! ## Lists and blocks -/

open Node (ofToken applied commaItems endsReturn)

/-- Reads statements up to the closing kind, or up to the end if there is none. -/
def statements (expr : Nat → CursorM Node) (closer : Option Kind) : (fuel : Nat) →
    CursorM (List Node)
  | 0 => exhausted
  | fuel + 1 => do
    skipSemicolons (fuel + 1)
    if (← closes closer) || (← atEnd) then return []
    let statement ← expr 0
    if !(← closes closer) then
      discard (expect .semicolon .separator)
    return statement :: (← statements expr closer fuel)

/-- Reads one item or more with commas between them. -/
def items (expr : Nat → CursorM Node) : (fuel : Nat) → CursorM (List Node)
  | 0 => exhausted
  | fuel + 1 => do
    let item ← expr Kind.commaPower
    if ← accept .comma then return item :: (← items expr fuel)
    else return [item]

/-- Reads items up to the closing kind, and the token that closes them. -/
def enclosed (expr : Nat → CursorM Node) (closer : Kind) (expectation : Expectation)
    (fuel : Nat) : CursorM (List Node) := do
  let children ← if ← check closer then pure [] else items expr fuel
  discard (expect closer expectation)
  return children

/-- Reads a block in braces. -/
def block (expr : Nat → CursorM Node) (fuel : Nat) : CursorM Node := do
  discard (expect .leftBrace .blockStart)
  let first ← peek
  let children ← statements expr (some .rightBrace) fuel
  discard (expect .rightBrace .blockEnd)
  return ⟨.statements, Kind.statements.name, first.position, children⟩

/-! ## What a token can begin -/

/-- Reads the branches of a conditional behind its first block. -/
def alternatives (expr : Nat → CursorM Node) (depth : Nat) : (fuel : Nat) → CursorM (List Node)
  | 0 => exhausted
  | fuel + 1 => do
    if ← accept .elseWord then
      if ← accept .ifWord then
        let condition ← expr 0
        let body ← block expr depth
        return condition :: body :: (← alternatives expr depth fuel)
      else return [← block expr depth]
    else return []

/-- Reads a function behind its keyword: parameters, channels if there are any, and a body. -/
def function (expr : Nat → CursorM Node) (fuel : Nat) : CursorM (List Node) := do
  let bracket ← expect .leftParen .parametersStart
  let parameters ← enclosed expr .rightParen .parametersEnd fuel
  let first ← peek
  let channels ← if ← accept .leftBracket then enclosed expr .rightBracket .channelsEnd fuel
    else pure []
  let body ← block expr fuel
  return [⟨.leftParen, "params", bracket.position, parameters⟩,
    ⟨.leftBracket, "channels", first.position, channels⟩, body]

/-- Reads the expression that begins with a token. -/
def start (expr : Nat → CursorM Node) (fuel : Nat) (token : Token) : CursorM Node := do
  match token.kind with
  | .identifier | .int | .float | .string | .trueWord | .falseWord | .nilWord | .breakWord
  | .continueWord => return ofToken token []
  | .not | .minus => return ofToken token [← expr Kind.signPower]
  | .leftParen =>
    if ← accept .rightParen then return ofToken token []
    else
      let inner ← expr 0
      discard (expect .rightParen .groupEnd)
      return inner
  | .returnWord =>
    if endsReturn (← peek).kind then return ofToken token []
    else return ofToken token [← expr Kind.returnPower]
  | .externWord => return ofToken token (← items expr fuel)
  | .funcWord => return ofToken token (← function expr fuel)
  | .ifWord =>
    let condition ← expr 0
    let body ← block expr fuel
    return ofToken token (condition :: body :: (← alternatives expr fuel fuel))
  | .whileWord =>
    let condition ← expr 0
    return ofToken token [condition, ← block expr fuel]
  | .finish => fail .moreInput token
  | _ => fail .expression token

/-! ## What a token can add -/

/-- Reads what a token adds to the expression on its left. -/
def extend (expr : Nat → CursorM Node) (fuel : Nat) (token : Token) (left : Node) :
    CursorM Node := do
  match token.kind with
  | .assign | .default | .accumulate =>
    return ofToken token [left, ← expr (token.kind.bindingPower - 1)]
  | .comma => return ofToken token (commaItems left ++ [← expr Kind.commaPower])
  | .leftParen => return applied token left (← enclosed expr .rightParen .argumentsEnd fuel)
  | .leftBracket =>
    let index ← expr 0
    discard (expect .rightBracket .indexEnd)
    return ofToken token [left, index]
  | .period =>
    let field ← expect .identifier .fieldName
    return ofToken token [left, ofToken field []]
  | kind => return ofToken token [left, ← expr kind.bindingPower]

/-- Extends an expression as long as the next token binds more strongly than `power`. -/
def operators (expr : Nat → CursorM Node) (depth power : Nat) : (fuel : Nat) → Node →
    CursorM Node
  | 0, _ => exhausted
  | fuel + 1, left => do
    if power < (← peek).kind.bindingPower then
      let token ← next
      operators expr depth power fuel (← extend expr depth token left)
    else return left

/-! ## Expressions and programs -/

/-- Reads the longest expression whose operators all bind more strongly than `power`. -/
def expression : (fuel : Nat) → (power : Nat) → CursorM Node
  | 0, _ => exhausted
  | fuel + 1, power => do
    let token ← next
    let left ← start (expression fuel) fuel token
    operators (expression fuel) fuel power fuel left

/-- Reads statements up to the end of the input. -/
def program (fuel : Nat) : CursorM Node := do
  let first ← peek
  let children ← statements (expression fuel) none fuel
  return ⟨.statements, Kind.statements.name, first.position, children⟩

/-- The tree of a row of tokens, read along the row. -/
def parse (fuel : Nat) (tokens : List Token) : Except Halt Node :=
  (program fuel).run' (ofTokens tokens)

end Cursor

end Scripting

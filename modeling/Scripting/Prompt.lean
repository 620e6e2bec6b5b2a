import Scripting.Session
import Scripting.Text

/-!
# The prompt

At the prompt, lines are collected until no bracket or brace is left open, and then run as one
source. A line with a single point runs what was collected so far, whatever is open. Brackets are
counted as characters, wherever they stand.
-/

namespace Scripting

/-- The lines that were typed and not yet run. -/
structure Pending where
  /-- The lines, each with its line end. -/
  input : String
  /-- How many more brackets and braces they open than close. -/
  depth : Int
  deriving DecidableEq, Repr

namespace Pending

/-- No lines. -/
def none : Pending := ⟨"", 0⟩

/-- The text that asks for a line. -/
def prompt (p : Pending) : String :=
  if p.input.isEmpty then ">>> " else "... "

/-- How many more brackets and braces a line opens than closes. -/
def bracketDepth (line : String) : Int :=
  line.toList.foldl (fun depth c =>
    if c = '(' || c = '{' then depth + 1
    else if c = ')' || c = '}' then depth - 1
    else depth) 0

/-- Does the line ask to run what was collected? -/
def forces (line : String) : Bool :=
  Text.trim line = ['.']

/-- Takes a line. The result is what is pending then, and the source to be run if there is one. -/
def add (p : Pending) (line : String) : Pending × Option String :=
  if forces line then (none, some p.input)
  else
    let input := p.input ++ line ++ "\n"
    let depth := p.depth + bracketDepth line
    if 0 < depth then (⟨input, depth⟩, .none) else (none, some input)

end Pending

/-- A session at a prompt. -/
structure Console where
  /-- The session; what is printed on it is on the console. -/
  session : Session
  /-- The errors reported, each with a line end. -/
  errors : String

/-- A computation on a console. It goes on after errors, and can only run out of fuel. -/
abbrev ConsoleM := EStateM (Stop Empty) Console

namespace Console

/-- Works in the session, and reports an error if there is one. -/
def attempt (work : SessionM Unit) : ConsoleM Unit := fun c =>
  match work c.session with
  | .ok _ session => .ok () { c with session := session }
  | .error (.error e) session =>
    .ok () { c with session := session, errors := c.errors ++ e.message ++ "\n" }
  | .error .outOfFuel session => .error .outOfFuel { c with session := session }

/-- Asks for a line. -/
def ask (p : Pending) : ConsoleM Unit :=
  attempt (Session.evaluating (Eval.print p.prompt))

/-- Takes a line, and runs what is complete. -/
def submit (fuel : Nat) (display : Display) (p : Pending) (line : String) : ConsoleM Pending := do
  let (p, source?) := p.add line
  if let some source := source? then attempt (Session.runScript fuel display source)
  return p

/-- Asks for lines as long as there are any. What is pending at the end is dropped. -/
def converse (fuel : Nat) (display : Display) (p : Pending) : List String → ConsoleM Unit
  | [] => ask p
  | line :: rest => do
    ask p
    converse fuel display (← submit fuel display p line) rest

end Console

end Scripting

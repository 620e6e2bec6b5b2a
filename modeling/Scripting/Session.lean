import Scripting.Builtins
import Scripting.Code.Compile
import Scripting.Evaluation
import Scripting.Node.Parser
import Scripting.Node.Printer
import Scripting.Token.Scan

/-!
# Sessions

A session runs sources one after the other. Variables of the top level stay from one run to the
next, also after a run that fails. A run scans, parses and analyses its source and compiles all of
it before any of it is evaluated.
-/

namespace Scripting

/-- Why a run fails. -/
inductive Error where
  | scan (errors : List ScanError)
  | parse (e : ParseError)
  | analysis (e : AnalysisError)
  | compile (e : CompileError)
  | runtime (e : RuntimeError)
  deriving DecidableEq, Repr

namespace Error

/-- The wording of an error; the errors of a scan take a line each. -/
def message : Error → String
  | scan errors => "\n".intercalate (errors.map ScanError.message)
  | parse e => e.message
  | analysis e => e.message
  | compile e => e.message
  | runtime e => e.message

/-- The exit status for an error: 70 if evaluation failed, and 65 if the source was refused. -/
def exitCode : Error → Nat
  | runtime _ => 70
  | _ => 65

end Error

/-- What a run shows besides its results. -/
structure Display where
  /-- Print the tree before running it. -/
  tree : Bool
  /-- Print the analysis of each function before running them. -/
  analyses : Bool
  deriving DecidableEq, Repr

namespace Display

/-- Nothing is shown. -/
def plain : Display := ⟨false, false⟩

end Display

/-- A session between two runs. -/
structure Session where
  /-- The variables and what was printed. -/
  state : State
  /-- The names that were used and that nothing binds, run by run. -/
  warnings : List String

/-- A computation in a session, which may stop. -/
abbrev SessionM := EStateM (Stop Error) Session

namespace Program

/-- The reports of all functions, numbered from one. -/
def reports (p : Program) : String :=
  String.join <| p.functions.mapIdx fun i f =>
    "func #" ++ toString (i + 1) ++ ":\n" ++ f.report ++ "\n"

end Program

namespace Session

/-- A new session. -/
def start (clock : Clock) : Session := ⟨.initial clock, []⟩

/-- The names bound at the top level. -/
def globalNames (s : Session) : List String :=
  (s.state.store.bindings Scope.global.frame).names

/-- Stops with an error if there is one. -/
def orStop {α ε : Type} (kind : ε → Error) : Except ε α → SessionM α
  | .ok a => return a
  | .error e => throw (.error (kind e))

/-- Evaluates in the session. What evaluation did stays, also if it stops. -/
def evaluating {α : Type} (work : Eval α) : SessionM α := fun s =>
  match work s.state with
  | .ok a state => .ok a { s with state := state }
  | .error e state => .error (e.map .runtime) { s with state := state }

/-- Evaluates an analysed program at the top level. A return there ends the program with its
values. -/
def evaluate (fuel : Nat) (p : Program) : SessionM (List Value) := do
  let code ← orStop .compile p.compile
  return Eval.returned (← evaluating (code.run fuel .global))

/-- Runs a source and yields its values. -/
def run (fuel : Nat) (display : Display) (source : String) : SessionM (List Value) := do
  let tokens ← orStop .scan (Token.scan source)
  let root ← match Node.ofTokens tokens with
    | .ok root => pure root
    | .error e => throw (e.map .parse)
  if display.tree then evaluating (Eval.print (root.sexpr ++ "\n"))
  let known := (← get).globalNames
  let program ← orStop .analysis (Program.ofNode root)
  modify fun s => { s with warnings := s.warnings ++ program.warnings known }
  if display.analyses then evaluating (Eval.print program.reports)
  evaluate fuel program

/-- Prints values on a line, if there are any. -/
def printValues (values : List Value) : SessionM Unit :=
  if values.isEmpty then return ()
  else evaluating (Eval.print (Value.joined values ++ "\n"))

/-- Runs a source and prints its values. -/
def runScript (fuel : Nat) (display : Display) (source : String) : SessionM Unit := do
  printValues (← run fuel display source)

/-- Calls a function from the top level. -/
def call (fuel : Nat) (f : Function) (arguments : List Value) (position : Position) :
    SessionM (List Value) :=
  evaluating (Eval.call (Code.run fuel) f arguments .global position)

end Session

end Scripting

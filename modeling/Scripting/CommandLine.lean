import Scripting.Session
import Scripting.Text

/-!
# The command line

A command names at most one script. Without one the standard input is run. The process reports each
line of an error behind the name of its source.
-/

namespace Scripting

/-- What a command asks for. -/
structure Command where
  /-- The script to run. -/
  script : Option String
  /-- What the run shows. -/
  display : Display
  /-- Only log errors. -/
  quiet : Bool
  /-- How much more to log. -/
  verbosity : Nat
  deriving DecidableEq, Repr

namespace Command

/-- The command without arguments. -/
def bare : Command := ⟨none, .plain, false, 0⟩

/-- Takes the script's name. There may be only one, and it must not be empty. -/
def takeScript (c : Command) (name : String) : Option Command :=
  if c.script.isNone && !name.isEmpty then some { c with script := some name } else none

/-- Takes an option that may stand only once, unless it makes the log longer. -/
def takeOption (c : Command) (name : String) : Option Command :=
  match name with
  | "sexpr" =>
    if c.display.tree then none else some { c with display := { c.display with tree := true } }
  | "analyze" =>
    if c.display.analyses then none
    else some { c with display := { c.display with analyses := true } }
  | "quiet" => if c.quiet then none else some { c with quiet := true }
  | "verbose" => some { c with verbosity := c.verbosity + 1 }
  | _ => none

/-- The long name of an option that has a letter. -/
def longName (letter : Char) : String :=
  match letter with
  | 'q' => "quiet"
  | 'v' => "verbose"
  | c => c.toString

/-- Takes an argument. -/
def take (c : Command) (argument : String) : Option Command :=
  match argument.toList with
  | '-' :: '-' :: name => c.takeOption (String.ofList name)
  | '-' :: letter :: letters =>
    (letter :: letters).foldlM (fun c letter => c.takeOption (longName letter)) c
  | _ => c.takeScript argument

/-- Takes the arguments in order. Behind `--` all of them are names of scripts. -/
def takeAll (c : Command) : List String → Option Command
  | [] => some c
  | "--" :: rest => rest.foldlM takeScript c
  | argument :: rest => do takeAll (← c.take argument) rest

/-- The command with the given arguments, if they make one. -/
def parse? (arguments : List String) : Option Command :=
  bare.takeAll arguments

end Command

/-- Why a file has no text. -/
inductive FileFault where
  /-- There is no such file. -/
  | missing
  /-- The file cannot be read, for the cause given. -/
  | unreadable (cause : String)
  deriving DecidableEq, Repr

/-- The wording of a fault. -/
def FileFault.message : FileFault → String
  | missing => "No such file or directory (os error 2)"
  | unreadable cause => cause

/-- How a process ends. -/
structure Outcome where
  /-- The exit status. -/
  exitCode : Nat
  /-- The standard output. -/
  stdout : String
  /-- The standard error output. -/
  stderr : String
  deriving DecidableEq, Repr

namespace Outcome

/-- A process that does nothing but complain. -/
def complaint (exitCode : Nat) (text : String) : Outcome := ⟨exitCode, "", text⟩

/-- The end of a process whose arguments make no command. -/
def misuse : Outcome :=
  complaint 2 "error: unexpected arguments\n\nFor more information, try '--help'.\n"

/-- A message with the name of a source in front of each line. -/
def labelled (source message : String) : String :=
  String.join <| (Text.lines message.toList).map fun line =>
    source ++ ":" ++ String.ofList line ++ "\n"

end Outcome

namespace Command

/-- Runs the text of a source in a new session. -/
def runText (fuel : Nat) (clock : Clock) (c : Command) (source text : String) : Outcome :=
  match Session.runScript fuel c.display text (Session.start clock) with
  | .ok _ s => ⟨0, s.state.output, ""⟩
  | .error (.error e) s => ⟨e.exitCode, s.state.output, Outcome.labelled source e.message⟩
  | .error .outOfFuel s => ⟨70, s.state.output, Outcome.labelled source "out of fuel"⟩

/-- Runs a command. `read` gives the text of a file. -/
def execute (fuel : Nat) (clock : Clock) (c : Command) (read : String → Except FileFault String)
    (stdin : String) : Outcome :=
  match c.script with
  | none => c.runText fuel clock "stdin" stdin
  | some name =>
    match read name with
    | .ok text => c.runText fuel clock name text
    | .error fault => .complaint 1 <|
      "Error: failed to read " ++ name ++ "\n\nCaused by:\n    " ++ fault.message ++ "\n"

/-- Runs the command with the given arguments. -/
def perform (fuel : Nat) (clock : Clock) (arguments : List String)
    (read : String → Except FileFault String) (stdin : String) : Outcome :=
  match parse? arguments with
  | some c => c.execute fuel clock read stdin
  | none => .misuse

end Command

end Scripting

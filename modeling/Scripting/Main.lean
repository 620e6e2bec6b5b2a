import Scripting.CommandLine
import Scripting.Prompt
import Std.Time.DateTime.Timestamp

/-!
# The program

Reads what the command asks for, performs it, and writes what comes out. Without a script, and with
a terminal as its input, it is a prompt. A run is performed as a whole, so the time is read before
it, and its clock stands still.
-/

namespace Scripting.Main

/-- A bound that no run reaches. -/
def fuel : Nat := Nat.pow 2 60

/-- The time in seconds, in steps of a thousandth. -/
def currentTime : IO Float := do
  let now ← Std.Time.Timestamp.now
  return Float.ofInt now.toMillisecondsSinceUnixEpoch.val / 1000

/-- All that is left of an input. -/
partial def readAll (input : IO.FS.Stream) (before : String) : IO String := do
  let line ← input.getLine
  if line.isEmpty then return before else readAll input (before ++ line)

/-- The text of a file. -/
def readFile (name : String) : IO (Except FileFault String) := do
  try
    return .ok (← IO.FS.readFile name)
  catch
    | .noFileOrDirectory .. => return .error .missing
    | e => return .error (.unreadable (toString e))

/-- Runs a console computation and writes what it printed. -/
def shown {α : Type} (work : ConsoleM α) (c : Console) : IO (Option α × Console) := do
  let (result, c) := match work c with
    | .ok a c => (some a, c)
    | .error _ c => (none, c)
  IO.print c.session.state.output
  IO.eprint c.errors
  (← IO.getStdout).flush
  let state := { c.session.state with output := "", clock := .standing (← currentTime) }
  return (result, ⟨{ c.session with state := state }, ""⟩)

/-- Asks for lines and runs them until the input ends. -/
partial def interact (display : Display) (input : IO.FS.Stream) (p : Pending) (c : Console) :
    IO Unit := do
  let (_, c) ← shown (Console.ask p) c
  let line ← input.getLine
  if line.isEmpty then return ()
  let line := if line.endsWith "\n" then (line.dropEnd 1).toString else line
  let (next?, c) ← shown (Console.submit fuel display p line) c
  interact display input (next?.getD .none) c

/-- Writes the end of a process and gives its exit status. -/
def report (o : Outcome) : IO UInt32 := do
  IO.print o.stdout
  IO.eprint o.stderr
  return UInt32.ofNat o.exitCode

end Scripting.Main

open Scripting Scripting.Main in
/-- Performs the command with the given arguments. -/
def main (arguments : List String) : IO UInt32 := do
  let now ← currentTime
  let input ← IO.getStdin
  match Command.parse? arguments with
  | none => report .misuse
  | some c =>
    match c.script with
    | some name =>
      let text ← readFile name
      report (c.execute fuel now (fun _ => text) "")
    | none =>
      if ← input.isTty then
        IO.println "gosh 0.1.0"
        interact c.display input .none ⟨.start now, ""⟩
        return 0
      else report (c.execute fuel now (fun _ => .error .missing) (← readAll input ""))

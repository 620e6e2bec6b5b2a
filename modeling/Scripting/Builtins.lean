import Scripting.Evaluation.State

/-!
# Functions of the library

Every session starts with two functions, `print` and `clock`.
-/

namespace Scripting

/-- `print(value)` writes the text of a value and a line end. -/
def Function.print : Function where
  id := 0
  parameters := ["value"]
  channels := []
  locals := []
  body := .primitive .print
  captured := ∅

/-- `clock()` yields the time in seconds. -/
def Function.clock : Function where
  id := 1
  parameters := []
  channels := []
  locals := []
  body := .primitive .clock
  captured := ∅

/-- The functions of the library by name. -/
def builtins : List (String × Function) :=
  [("print", .print), ("clock", .clock)]

namespace Store

/-- Binds the functions of the library in a scope. A variable that cannot hold a function stays as
it is. -/
def install (s : Store) (scope : Scope) : Store :=
  builtins.foldl (fun s (name, f) => (s.set scope name (.function f)).toOption.getD s) s

end Store

/-- The scope of the top level, which lasts as long as the session. -/
def Scope.global : Scope := ⟨0, []⟩

/-- The state in which a session starts: nothing but the functions of the library. -/
def State.initial (clock : Clock) : State where
  store := (Store.empty.newFrame ∅).2.install .global
  output := ""
  nextFunction := builtins.length
  clock := clock

end Scripting

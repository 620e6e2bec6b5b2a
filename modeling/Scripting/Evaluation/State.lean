import Scripting.Store
import Scripting.Value.Operators

/-!
# What evaluation works on

Evaluation changes a state and may stop. What was done to the state before it stops is kept.
-/

namespace Scripting

/-- Why evaluation fails. -/
inductive RuntimeFault where
  /-- A variable cannot be read or written. -/
  | scope (fault : ScopeFault)
  /-- An operator has no result. -/
  | operand (fault : OperandFault)
  /-- Not one value where one is needed. -/
  | valueCount (count : Nat)
  /-- An assignment with more targets or more values. -/
  | assignmentCount (targets values : Nat)
  /-- Something else than a function was applied. -/
  | notCallable (type : ValueType)
  /-- A call with the wrong number of arguments. -/
  | argumentCount (parameters arguments : Nat)
  /-- A function needs a variable that does not exist where it is defined. -/
  | capture (name : String)
  deriving DecidableEq, Repr

/-- The wording of a fault. -/
def RuntimeFault.message : RuntimeFault → String
  | scope fault => fault.message
  | operand fault => fault.message
  | valueCount count => "expected a single value, got " ++ toString count
  | assignmentCount targets values =>
    "count of variables on left (" ++ toString targets
      ++ ") does not match number of results on right side (" ++ toString values ++ ")"
  | notCallable type => "cannot apply a non-function (" ++ type.name ++ ")"
  | argumentCount parameters arguments =>
    "number of arguments (" ++ toString arguments
      ++ ") does not match number of parameters (" ++ toString parameters ++ ")"
  | capture name => "unable to capture free variable " ++ name

/-- A failure of evaluation. -/
structure RuntimeError where
  /-- What is wrong. -/
  fault : RuntimeFault
  /-- The place of the construct that failed. -/
  position : Position
  deriving DecidableEq, Repr

/-- The wording of an error with its place. -/
def RuntimeError.message (e : RuntimeError) : String :=
  e.position.report e.fault.message

/-- A clock. No two readings need to agree. -/
structure Clock where
  /-- The time that it shows, in seconds, by the number of the reading. -/
  shows : Nat → Float
  /-- How often it was read. -/
  readings : Nat

namespace Clock

/-- The clock that stands still at a time. -/
def standing (time : Float) : Clock := ⟨fun _ => time, 0⟩

/-- A time stands for the clock that always shows it. -/
instance : Coe Float Clock := ⟨standing⟩

instance (n : Nat) : OfNat Clock n := ⟨standing (OfNat.ofNat n)⟩

end Clock

/-- All that evaluation reads and changes. -/
structure State where
  /-- The variables. -/
  store : Store
  /-- What was printed. -/
  output : String
  /-- The number of the next function. -/
  nextFunction : Nat
  /-- What the time is read from. -/
  clock : Clock

/-- A computation on a state, which may stop. -/
abbrev Eval := EStateM (Stop RuntimeError) State

namespace Eval

/-- Stops with a failure. -/
def fail {α : Type} (fault : RuntimeFault) (position : Position) : Eval α :=
  throw (.error ⟨fault, position⟩)

/-- Stops because the bound was reached. -/
def exhausted {α : Type} : Eval α :=
  throw .outOfFuel

/-- Looks at the store, and fails at `position` if that fails. -/
def inspect {α : Type} (position : Position) (look : Store → Except ScopeFault α) : Eval α := do
  match look (← get).store with
  | .ok a => return a
  | .error fault => fail (.scope fault) position

/-- Changes the store. -/
def update (change : Store → Store) : Eval Unit :=
  modify fun s => { s with store := change s.store }

/-- The result of an operator, which fails at `position` if there is none. -/
def operate (position : Position) (result : Except OperandFault Value) : Eval Value :=
  match result with
  | .ok value => return value
  | .error fault => fail (.operand fault) position

/-- Writes to the output. -/
def print (text : String) : Eval Unit :=
  modify fun s => { s with output := s.output ++ text }

/-- The time that the clock shows. It is read once more by that. -/
def readClock : Eval Float :=
  modifyGet fun s => (s.clock.shows s.clock.readings,
    { s with clock := { s.clock with readings := s.clock.readings + 1 } })

/-- A number that no function has. -/
def newFunctionId : Eval Nat :=
  modifyGet fun s => (s.nextFunction, { s with nextFunction := s.nextFunction + 1 })

/-- A new frame with bindings. -/
def newFrame (bindings : NameMap CellId) : Eval FrameId :=
  modifyGet fun s =>
    let (frame, store) := s.store.newFrame bindings
    (frame, { s with store := store })

/-- The value of a variable. -/
def readName (scope : Scope) (name : String) (position : Position) : Eval Value :=
  inspect position fun s => s.value scope name

/-- Gives a value to a variable. -/
def assignName (scope : Scope) (position : Position) (name : String) (value : Value) :
    Eval Unit := do
  inspect position fun s => s.checkSet scope name value
  update fun s => s.put scope name value

/-- Gives values to variables in order. -/
def assignNames (scope : Scope) (position : Position) : List (String × Value) → Eval Unit
  | [] => return ()
  | (name, value) :: rest => do
    assignName scope position name value
    assignNames scope position rest

/-- Gives values to variables in order if all of them can be given. -/
def assignAll (scope : Scope) (position : Position) (writes : List (String × Value)) :
    Eval Unit := do
  inspect position fun s => s.checkAll scope writes
  assignNames scope position writes

end Eval

end Scripting

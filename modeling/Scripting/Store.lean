import Scripting.Value

/-!
# Variables

A store holds cells, each with a value, and frames, each of which binds names to cells. A cell may
be bound in several frames; those that bind it see each other's writes. A scope is a frame with the
frames around it, and a name that the frame does not bind is looked up in those.

A binding is made and written in the frame of the scope alone. The type of the value in a cell may
change only while it is nil.
-/

namespace Scripting

/-- The number of a frame. -/
abbrev FrameId := Nat

/-- A frame and the frames around it. -/
structure Scope where
  /-- Where names are bound and looked up first. -/
  frame : FrameId
  /-- Where they are looked up next, the nearest first. -/
  outer : List FrameId
  deriving DecidableEq, Repr

namespace Scope

/-- The frames in which names are looked up, in order. -/
def chain (scope : Scope) : List FrameId :=
  scope.frame :: scope.outer

/-- A scope inside another. -/
def inside (frame : FrameId) (around : Scope) : Scope :=
  ⟨frame, around.chain⟩

end Scope

/-- Why a variable cannot be read or written. -/
inductive ScopeFault where
  | undefined (name : String)
  /-- A write would change the type of a value that is not nil. -/
  | typeMismatch (name : String) (old new : ValueType)
  deriving DecidableEq, Repr

/-- The wording of a fault. -/
def ScopeFault.message : ScopeFault → String
  | undefined name => "attempt to access undefined variable " ++ name
  | typeMismatch name old new =>
    "attempt to convert variable " ++ name ++ " from type " ++ old.name ++ " to type " ++ new.name

/-- Cells and frames. -/
structure Store where
  /-- The value in each cell. -/
  cells : Array Value
  /-- The bindings of each frame. -/
  frames : Array (NameMap CellId)

namespace Store

/-- The store without cells and frames. -/
def empty : Store := ⟨#[], #[]⟩

/-! ## Cells and frames -/

/-- The value in a cell. -/
def read (s : Store) (cell : CellId) : Value :=
  s.cells[cell]?.getD .nil

/-- Puts a value into a cell. -/
def write (s : Store) (cell : CellId) (value : Value) : Store :=
  { s with cells := s.cells.setIfInBounds cell value }

/-- A new cell with a value. -/
def newCell (s : Store) (value : Value) : CellId × Store :=
  (s.cells.size, { s with cells := s.cells.push value })

/-- A new frame with bindings. -/
def newFrame (s : Store) (bindings : NameMap CellId) : FrameId × Store :=
  (s.frames.size, { s with frames := s.frames.push bindings })

/-- The bindings of a frame. -/
def bindings (s : Store) (frame : FrameId) : NameMap CellId :=
  s.frames[frame]?.getD ∅

/-- Binds a name to a cell. -/
def bind (s : Store) (frame : FrameId) (name : String) (cell : CellId) : Store :=
  { s with frames := s.frames.modify frame (·.insert name cell) }

/-- A write changes the cell written and no other. -/
theorem read_write (s : Store) {cell : CellId} (h : cell < s.cells.size) (value : Value)
    (other : CellId) :
    (s.write cell value).read other = if cell = other then value else s.read other := by
  simp only [read, write, Array.getElem?_setIfInBounds]
  split <;> simp

/-- A new cell holds its value, and the cells before it hold what they held. -/
theorem read_newCell (s : Store) (value : Value) (other : CellId) :
    (s.newCell value).2.read other = if other = s.cells.size then value else s.read other := by
  simp only [read, newCell, Array.getElem?_push]
  split <;> simp

/-- A binding changes the frame that it is made in and no other. -/
theorem bindings_bind (s : Store) {frame : FrameId} (h : frame < s.frames.size) (name : String)
    (cell : CellId) (other : FrameId) :
    (s.bind frame name cell).bindings other =
      if frame = other then (s.bindings frame).insert name cell else s.bindings other := by
  simp only [bindings, bind, Array.getElem?_modify]
  split
  · next e => subst e; simp [h]
  · rfl

/-- A new frame has the bindings given, and the frames before it have what they had. -/
theorem bindings_newFrame (s : Store) (bindings : NameMap CellId) (other : FrameId) :
    (s.newFrame bindings).2.bindings other =
      if other = s.frames.size then bindings else s.bindings other := by
  simp only [Store.bindings, newFrame, Array.getElem?_push]
  split <;> simp

/-! ## Looking up -/

/-- The cell that the frame of the scope itself binds to a name. -/
def ownCell? (s : Store) (scope : Scope) (name : String) : Option CellId :=
  (s.bindings scope.frame).get? name

/-- Does the frame of the scope itself bind the name? -/
def contains (s : Store) (scope : Scope) (name : String) : Bool :=
  (s.ownCell? scope name).isSome

/-- The cell of a name: that of the first frame of the chain that binds it. -/
def cell? (s : Store) (scope : Scope) (name : String) : Option CellId :=
  scope.chain.findSome? fun frame => (s.bindings frame).get? name

/-- The value of a name. -/
def value? (s : Store) (scope : Scope) (name : String) : Option Value :=
  (s.cell? scope name).map s.read

/-- The cell of a name that must have one. -/
def cell (s : Store) (scope : Scope) (name : String) : Except ScopeFault CellId :=
  match s.cell? scope name with
  | some cell => .ok cell
  | none => .error (.undefined name)

/-- The value of a name that must have one. -/
def value (s : Store) (scope : Scope) (name : String) : Except ScopeFault Value :=
  (s.cell scope name).map s.read

/-! ## Writing -/

/-- May a value take the place of another under the name? -/
def checkType (name : String) (current value : Value) : Except ScopeFault Unit :=
  if current.isNil || current.sameType value then .ok ()
  else .error (.typeMismatch name current.type value.type)

/-- Would `set` accept the value? -/
def checkSet (s : Store) (scope : Scope) (name : String) (value : Value) :
    Except ScopeFault Unit :=
  match s.ownCell? scope name with
  | some cell => checkType name (s.read cell) value
  | none => .ok ()

/-- Would `set` accept the writes one after the other? `pending` holds what was written before
them. -/
def checkWrites (s : Store) (scope : Scope) (pending : NameMap Value) :
    List (String × Value) → Except ScopeFault Unit
  | [] => .ok ()
  | (name, value) :: rest => do
    match pending.get? name with
    | some current => checkType name current value
    | none => s.checkSet scope name value
    checkWrites s scope (pending.insert name value) rest

/-- Would `set` accept the writes one after the other? A name written twice is checked against its
own earlier write. -/
def checkAll (s : Store) (scope : Scope) (writes : List (String × Value)) :
    Except ScopeFault Unit :=
  s.checkWrites scope ∅ writes

/-- Puts a value under a name in the frame of the scope, whatever was there. A name bound there keeps
its cell. -/
def put (s : Store) (scope : Scope) (name : String) (value : Value) : Store :=
  match s.ownCell? scope name with
  | some cell => s.write cell value
  | none =>
    let (cell, s) := s.newCell value
    s.bind scope.frame name cell

/-- Gives a value to a name in the frame of the scope, if its type may be there. -/
def set (s : Store) (scope : Scope) (name : String) (value : Value) : Except ScopeFault Store := do
  s.checkSet scope name value
  return s.put scope name value

end Store

end Scripting

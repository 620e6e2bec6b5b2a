import Scripting.Code
import Scripting.NameMap

/-!
# Values

What evaluation yields, variables hold and functions take. A signal is a value too: it travels as
the only member of a list of values and ends what it passes through.
-/

namespace Scripting

/-- The number of a cell, the place where the value of a variable is kept. -/
abbrev CellId := Nat

/-- A function: its code and the cells that it took along where it was defined. -/
structure Function where
  /-- Tells functions apart; two are the same only if their numbers are equal. -/
  id : Nat
  /-- The parameters in order. -/
  parameters : List String
  /-- The channels in order. -/
  channels : List String
  /-- The variables that a call starts with, besides the parameters. -/
  locals : List String
  /-- What a call runs. -/
  body : Code
  /-- The cells taken along, by name. -/
  captured : NameMap CellId

/-- The number of arguments that a call must have. -/
def Function.arity (f : Function) : Nat :=
  f.parameters.length

mutual

/-- A value. -/
inductive Value where
  | nil
  | bool (b : Bool)
  | int (n : Int64)
  | float (x : Float)
  | string (s : String)
  | function (f : Function)
  | control (s : Signal)

/-- What ends a call or a round of a loop. -/
inductive Signal where
  /-- Ends a call with the values given. -/
  | returning (values : List Value)
  /-- Ends a loop. -/
  | breaking
  /-- Ends a round of a loop. -/
  | continuing

end

/-- The type of a value. -/
inductive ValueType where
  | nil
  | bool
  | int
  | float
  | string
  | function
  | control
  deriving DecidableEq, Repr

/-- How a type is called in messages. -/
def ValueType.name : ValueType → String
  | nil => "nil"
  | bool => "bool"
  | int => "int64"
  | float => "float64"
  | string => "string"
  | function => "function"
  | control => "control"

/-- The value of a constant. -/
def Literal.value : Literal → Value
  | nil => .nil
  | bool b => .bool b
  | int n => .int n
  | float x => .float x
  | string s => .string s

namespace Value

instance : Inhabited Value := ⟨nil⟩

/-- The type of a value. -/
def type : Value → ValueType
  | nil => .nil
  | bool _ => .bool
  | int _ => .int
  | float _ => .float
  | string _ => .string
  | function _ => .function
  | control _ => .control

/-- Is the value nil? -/
def isNil : Value → Bool
  | nil => true
  | _ => false

/-- Does the value count as true? All do but nil and false. -/
def isTruthy : Value → Bool
  | nil => false
  | bool b => b
  | _ => true

/-- Do two values have the same type? -/
def sameType (a b : Value) : Bool :=
  a.type = b.type

/-- Is a list of values a single signal? -/
def isSignal : List Value → Bool
  | [control _] => true
  | _ => false

end Value

end Scripting

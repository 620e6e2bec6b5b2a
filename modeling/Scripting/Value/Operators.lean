import Scripting.Value

/-!
# Operators on values

Arithmetic never mixes types. Integers wrap at 64 bits, and division truncates. Values of one type
can be compared if it is not a type of functions or signals, and only numbers and strings have an
order; strings are ordered by their code points.
-/

namespace Scripting

/-- How an operator is written. -/
def BinaryOp.symbol : BinaryOp → String
  | add => "+"
  | subtract => "-"
  | multiply => "*"
  | divide => "/"
  | remainder => "%"
  | equal => "=="
  | notEqual => "!="
  | less => "<"
  | lessEqual => "<="
  | greater => ">"
  | greaterEqual => ">="

/-- Why an operator has no result. -/
inductive OperandFault where
  /-- The operator has no meaning for values of these types. -/
  | undefinedFor (op : BinaryOp) (left right : ValueType)
  /-- Something else than a number was to be negated. -/
  | notNumber (type : ValueType)
  /-- Values of two types were compared. -/
  | differentTypes
  /-- Values of a type without equality were compared. -/
  | notComparable (type : ValueType)
  /-- Values of a type without an order were compared. -/
  | notOrdered (type : ValueType)
  /-- A float that is no number was compared. -/
  | notANumber
  /-- A division by zero. -/
  | divisionByZero
  deriving DecidableEq, Repr

/-- The wording of a fault. -/
def OperandFault.message : OperandFault → String
  | undefinedFor op left right =>
    "operator " ++ op.symbol ++ " is not defined for " ++ left.name ++ " and " ++ right.name
  | notNumber type => "unary - requires a number, got " ++ type.name
  | differentTypes => "cannot compare values of different types"
  | notComparable type => "values of type " ++ type.name ++ " are not comparable"
  | notOrdered type => "don't know how to order values of type " ++ type.name
  | notANumber => "cannot order NaN"
  | divisionByZero => "division by zero"

namespace Value

/-- The result of an operator that has none for the types of its operands. -/
def undefinedFor {α : Type} (op : BinaryOp) (a b : Value) : Except OperandFault α :=
  .error (.undefinedFor op a.type b.type)

/-- The sum of two numbers, or two strings one after the other. -/
def add : Value → Value → Except OperandFault Value
  | string a, string b => .ok (string (a ++ b))
  | int a, int b => .ok (int (a + b))
  | float a, float b => .ok (float (a + b))
  | a, b => undefinedFor .add a b

/-- The difference of two numbers. -/
def sub : Value → Value → Except OperandFault Value
  | int a, int b => .ok (int (a - b))
  | float a, float b => .ok (float (a - b))
  | a, b => undefinedFor .subtract a b

/-- The product of two numbers. -/
def mul : Value → Value → Except OperandFault Value
  | int a, int b => .ok (int (a * b))
  | float a, float b => .ok (float (a * b))
  | a, b => undefinedFor .multiply a b

/-- The quotient of two numbers, the second of which must not be zero. -/
def div : Value → Value → Except OperandFault Value
  | int a, int b => if b = 0 then .error .divisionByZero else .ok (int (a / b))
  | float a, float b => if b == 0 then .error .divisionByZero else .ok (float (a / b))
  | a, b => undefinedFor .divide a b

/-- The remainder of the division of two integers; it has the sign of the first. -/
def rem : Value → Value → Except OperandFault Value
  | int a, int b => if b = 0 then .error .divisionByZero else .ok (int (a % b))
  | a, b => undefinedFor .remainder a b

/-- The negative of a number. -/
def neg : Value → Except OperandFault Value
  | int n => .ok (int (-n))
  | float x => .ok (float (-x))
  | a => .error (.notNumber a.type)

/-- The fault of a comparison that is not defined. -/
def incomparable (a b : Value) (fault : ValueType → OperandFault) : OperandFault :=
  if a.sameType b then fault a.type else .differentTypes

/-- Are two values of the same type equal? -/
def equals : Value → Value → Except OperandFault Bool
  | nil, nil => .ok true
  | bool a, bool b => .ok (a == b)
  | int a, int b => .ok (a == b)
  | float a, float b => .ok (a == b)
  | string a, string b => .ok (a == b)
  | a, b => .error (incomparable a b .notComparable)

/-- The order of two floats, unless one is no number. -/
def compareFloats (a b : Float) : Except OperandFault Ordering :=
  if a < b then .ok .lt
  else if b < a then .ok .gt
  else if a == b then .ok .eq
  else .error .notANumber

/-- The order of two values. -/
def compare : Value → Value → Except OperandFault Ordering
  | int a, int b => .ok (Ord.compare a b)
  | float a, float b => compareFloats a b
  | string a, string b => .ok (Ord.compare a b)
  | a, b => .error (incomparable a b .notOrdered)

end Value

/-- The result of an operator on one value. -/
def UnaryOp.apply : UnaryOp → Value → Except OperandFault Value
  | negate, a => a.neg
  | not, a => .ok (.bool !a.isTruthy)

/-- The result of an operator on two values. -/
def BinaryOp.apply : BinaryOp → Value → Value → Except OperandFault Value
  | add, a, b => a.add b
  | subtract, a, b => a.sub b
  | multiply, a, b => a.mul b
  | divide, a, b => a.div b
  | remainder, a, b => a.rem b
  | equal, a, b => (a.equals b).map .bool
  | notEqual, a, b => (a.equals b).map fun e => .bool !e
  | less, a, b => (a.compare b).map fun o => .bool o.isLT
  | lessEqual, a, b => (a.compare b).map fun o => .bool o.isLE
  | greater, a, b => (a.compare b).map fun o => .bool o.isGT
  | greaterEqual, a, b => (a.compare b).map fun o => .bool o.isGE

end Scripting

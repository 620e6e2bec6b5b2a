/-!
# Decimal integers

Reads the text of an integer: at most one sign, then digits. The digits are taken from the left and
the first trouble counts, be it a character that is no digit or a value out of range.
-/

namespace Scripting.Decimal

/-- Why a text is no integer of the range. -/
inductive IntegerFault where
  | empty
  | invalidDigit
  | tooLarge
  | tooSmall
  deriving DecidableEq, Repr

/-- The wording of a fault. -/
def IntegerFault.message : IntegerFault → String
  | empty => "cannot parse integer from empty string"
  | invalidDigit => "invalid digit found in string"
  | tooLarge => "number too large to fit in target type"
  | tooSmall => "number too small to fit in target type"

/-- The value of a decimal digit. -/
def digitValue (c : Char) : Nat :=
  c.toNat - '0'.toNat

/-- Reads digits after others of the given value. The value may not exceed `limit`; `beyond` is the
fault if it does. -/
def readDigits (limit : Nat) (beyond : IntegerFault) : (value : Nat) → List Char →
    Except IntegerFault Nat
  | value, [] => .ok value
  | value, c :: rest =>
    if c.isDigit then
      if 10 * value + digitValue c ≤ limit then
        readDigits limit beyond (10 * value + digitValue c) rest
      else .error beyond
    else .error .invalidDigit

/-- Reads an integer between `-(bound)` and `bound - 1`. -/
def readInteger (bound : Nat) : List Char → Except IntegerFault Int
  | [] => .error .empty
  | ['+'] | ['-'] => .error .invalidDigit
  | '+' :: digits => (readDigits (bound - 1) .tooLarge 0 digits).map Int.ofNat
  | '-' :: digits => (readDigits bound .tooSmall 0 digits).map fun n => -Int.ofNat n
  | digits => (readDigits (bound - 1) .tooLarge 0 digits).map Int.ofNat

/-- Reads a signed integer of 64 bits. -/
def readInt64 (text : List Char) : Except IntegerFault Int64 :=
  (readInteger (Nat.pow 2 63) text).map Int64.ofInt

end Scripting.Decimal

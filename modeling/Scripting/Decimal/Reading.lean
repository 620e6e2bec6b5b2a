import Scripting.Decimal.Double
import Scripting.Decimal.Integer

/-!
# Reading doubles

The text of a double is a sign, then a word for infinity or for what is no number, or digits with
at most one point among them and at most one exponent behind them. The double is the one nearest to
the number written.
-/

namespace Scripting.Decimal

/-- Why a text is no double. -/
inductive FloatFault where
  | empty
  | invalid
  deriving DecidableEq, Repr

/-- The wording of a fault. -/
def FloatFault.message : FloatFault → String
  | empty => "cannot parse float from empty string"
  | invalid => "invalid float literal"

/-- A number as its decimal digits, the last of which counts `10 ^ exponent`. -/
structure Scientific where
  /-- The digits, the highest first. -/
  digits : List Char
  /-- The power of ten of the last digit. -/
  exponent : Int

/-- The value of a row of digits. -/
def digitsValue (digits : List Char) : Nat :=
  digits.foldl (fun n c => 10 * n + digitValue c) 0

/-- Reads the exponent that ends a number, from the letter that starts it. -/
def readExponent : List Char → Option Int
  | [] => some 0
  | c :: rest =>
    if c = 'e' || c = 'E' then
      let (negative, digits) := match rest with
        | '+' :: digits => (false, digits)
        | '-' :: digits => (true, digits)
        | digits => (false, digits)
      if digits.isEmpty || !digits.all Char.isDigit then none
      else some (if negative then -(digitsValue digits : Int) else digitsValue digits)
    else none

/-- Reads digits with a point and an exponent, both optional. There must be a digit before the
point or behind it. -/
def readScientific (text : List Char) : Option Scientific :=
  let whole := text.takeWhile Char.isDigit
  let rest := text.drop whole.length
  let (fraction, rest) := match rest with
    | '.' :: after =>
      let fraction := after.takeWhile Char.isDigit
      (fraction, after.drop fraction.length)
    | _ => ([], rest)
  if whole.isEmpty && fraction.isEmpty then none
  else (readExponent rest).map fun e => ⟨whole ++ fraction, e - fraction.length⟩

namespace Scientific

/-- The bits of the double nearest to the number. A number of `10 ^ 310` or more is infinite, and
one below `10 ^ (-325)` is zero; these need no large powers. -/
def bits (x : Scientific) : Nat :=
  let digits := x.digits.dropWhile (· = '0')
  let order := digits.length + x.exponent
  if digits.isEmpty || order < -325 then 0
  else if 310 < order then infinityBits
  else
    let (up, down) := tenPower x.exponent
    nearestBits (digitsValue digits * up) down

end Scientific

/-- The bits of a text without its sign. -/
def readMagnitude (text : List Char) : Option Nat :=
  match String.ofList (text.map Char.toLower) with
  | "inf" | "infinity" => some infinityBits
  | "nan" => some notANumberBits
  | _ => (readScientific text).map Scientific.bits

/-- Reads a double. -/
def readFloat (text : List Char) : Except FloatFault Float :=
  let (sign, rest) := match text with
    | '+' :: rest => (0, rest)
    | '-' :: rest => (signBit, rest)
    | _ => (0, text)
  if text.isEmpty then .error .empty
  else match readMagnitude rest with
    | some bits => .ok (Float.ofBits (UInt64.ofNat (sign + bits)))
    | none => .error .invalid

end Scripting.Decimal

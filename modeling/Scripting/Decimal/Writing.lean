import Scripting.Decimal.Double

/-!
# Writing doubles

A double is written with the fewest digits that read back as it, and of those texts the nearest to
its value. All digits are written out: there is no exponent, and a whole number has no point.
-/

namespace Scripting.Decimal

/-- The number `digits * 10 ^ exponent`. -/
structure Numeral where
  /-- The digits as a number. -/
  digits : Nat
  /-- The power of ten. -/
  exponent : Int
  deriving DecidableEq, Repr

namespace Magnitude

/-- Is the double below a magnitude only half as far away as the one above? -/
def narrowBelow (x : Magnitude) : Bool :=
  x.mantissa = leastNormal && leastExponent < x.exponent

/-- The multiple of `10 ^ grid` that reads back as the magnitude and is nearest to it, if there is
one; a tie goes up. Lengths are measured in quarters of the last binary digit of the magnitude. All
that lies up to half way to the next doubles reads back, and the middle itself does if the
mantissa is even. -/
def onGrid? (x : Magnitude) (grid : Int) : Option Numeral :=
  let (up, down) := twoPower (x.exponent - 2)
  let (gridUp, gridDown) := tenPower grid
  let quarter := up * gridDown
  let step := gridUp * down
  let value := 4 * x.mantissa * quarter
  let low := (4 * x.mantissa - if x.narrowBelow then 1 else 2) * quarter
  let high := (4 * x.mantissa + 2) * quarter
  let middle := x.mantissa % 2 = 0
  let below := value / step
  let above := below + 1
  let fitsBelow := low < below * step || (middle && low = below * step)
  let fitsAbove := above * step < high || (middle && above * step = high)
  if fitsBelow && !(fitsAbove && above * step - value ≤ value - below * step) then
    some ⟨below, grid⟩
  else if fitsAbove then some ⟨above, grid⟩
  else none

/-- A power of ten that is larger than the magnitude. -/
def topGrid (x : Magnitude) : Int :=
  (Nat.log2 x.mantissa + x.exponent) * 30103 / 100000 + 2

/-- All digits of the magnitude. -/
def exactly (x : Magnitude) : Numeral :=
  if 0 ≤ x.exponent then ⟨x.mantissa * Nat.pow 2 x.exponent.toNat, 0⟩
  else ⟨x.mantissa * Nat.pow 5 (-x.exponent).toNat, x.exponent⟩

/-- The shortest numeral that reads back as a positive magnitude. The grids are tried from coarse
to fine; seventeen digits are always enough. -/
def shortest (x : Magnitude) : Numeral :=
  ((List.range 20).findSome? fun (i : Nat) => x.onGrid? (x.topGrid - i)).getD x.exactly

end Magnitude

namespace Numeral

/-- A numeral with all its digits written out. -/
def positional (d : Numeral) : List Char :=
  let digits := Nat.toDigits 10 d.digits
  if 0 ≤ d.exponent then digits ++ List.replicate d.exponent.toNat '0'
  else
    let places := (-d.exponent).toNat
    let padded := List.replicate (places + 1 - digits.length) '0' ++ digits
    let whole := padded.length - places
    padded.take whole ++ '.' :: padded.drop whole

end Numeral

/-- The text of a finite double without its sign. -/
def writeMagnitude (x : Magnitude) : List Char :=
  if x.mantissa = 0 then ['0'] else x.shortest.positional

/-- The text of a double. What is no number has no sign, and infinity always has one. -/
def writeFloat (x : Float) : String :=
  let bits := x.toBits.toNat
  let negative := signBit ≤ bits
  let magnitude := bits % signBit
  if infinityBits < magnitude then "NaN"
  else if magnitude = infinityBits then if negative then "-Inf" else "+Inf"
  else
    let text := String.ofList (writeMagnitude (Magnitude.ofBits magnitude))
    if negative then "-" ++ text else text

end Scripting.Decimal

/-!
# Doubles as exact numbers

A finite double is a natural number times a power of two. `Magnitude.ofBits` takes that number out
of the bits, and `nearestBits` finds the double nearest to a quotient of natural numbers, a tie
going to the even neighbour. Both work on bit patterns and on exact numbers only.
-/

namespace Scripting.Decimal

/-- The number `mantissa * 2 ^ exponent`. -/
structure Magnitude where
  /-- The whole factor. -/
  mantissa : Nat
  /-- The power of two. -/
  exponent : Int
  deriving DecidableEq, Repr

/-- The mantissa of a normal double is at least this. -/
def leastNormal : Nat := Nat.pow 2 52

/-- The exponent of the smallest doubles. -/
def leastExponent : Int := -1074

/-- The exponent and fraction bits of infinity. -/
def infinityBits : Nat := 2047 * leastNormal

/-- The exponent and fraction bits of a number that is none. -/
def notANumberBits : Nat := infinityBits + leastNormal / 2

/-- The sign bit. -/
def signBit : Nat := Nat.pow 2 63

/-- The absolute value of the finite double with these bits. -/
def Magnitude.ofBits (bits : Nat) : Magnitude :=
  let fraction := bits % leastNormal
  match bits / leastNormal % 2048 with
  | 0 => ⟨fraction, leastExponent⟩
  | exponent + 1 => ⟨leastNormal + fraction, leastExponent + exponent⟩

/-- The bits of a magnitude whose mantissa has 53 binary digits at most, and fewer only if the
exponent is the least. -/
def Magnitude.toBits (x : Magnitude) : Nat :=
  x.mantissa + (x.exponent - leastExponent).toNat * leastNormal

/-- Two to a power as a numerator and a denominator. -/
def twoPower (e : Int) : Nat × Nat :=
  (Nat.pow 2 e.toNat, Nat.pow 2 (-e).toNat)

/-- Ten to a power as a numerator and a denominator. -/
def tenPower (e : Int) : Nat × Nat :=
  (Nat.pow 10 e.toNat, Nat.pow 10 (-e).toNat)

/-- The quotient rounded to the nearest natural number, a tie to the even one. -/
def roundQuotient (numerator denominator : Nat) : Nat :=
  let whole := numerator / denominator
  let rest := numerator % denominator
  if 2 * rest < denominator then whole
  else if denominator < 2 * rest then whole + 1
  else whole + whole % 2

/-- The exponent of the doubles around a positive quotient: the mantissa then has 53 binary
digits, unless that would take an exponent below the least. -/
def exponentAround (numerator denominator : Nat) : Int :=
  let e := (Nat.log2 numerator : Int) - Nat.log2 denominator - 53
  let (up, down) := twoPower (e + 53)
  max leastExponent (if denominator * up ≤ numerator * down then e + 1 else e)

/-- The bits of the double nearest to a quotient; beyond the largest double it is infinity. -/
def nearestBits (numerator denominator : Nat) : Nat :=
  if numerator = 0 then 0
  else
    let e := exponentAround numerator denominator
    let (up, down) := twoPower e
    let bits := Magnitude.toBits ⟨roundQuotient (numerator * down) (denominator * up), e⟩
    min bits infinityBits

end Scripting.Decimal

import Mathlib.Data.Int.ModEq
import Scripting.Value.Operators

/-!
# Proofs: arithmetic on integers

The integers that a program computes with are the residues modulo `2 ^ 64`, each shown by its member
of 64 bits with a sign. Sums, differences, products and negatives respect the residues, so they are
exact up to a multiple of the modulus. The quotient and the remainder are those of the division that
truncates toward zero; the one quotient that has no room, that of the least integer by minus one,
is wrapped too and still fits the law of division.
-/

namespace Scripting.Value

/-- The operator yields the integer of 64 bits that is congruent to the exact result. -/
def Wraps (result : Except OperandFault Value) (exact : Int) : Prop :=
  ∃ n : Int64, result = .ok (.int n) ∧ n.toInt ≡ exact [ZMOD 2 ^ 64]

/-! ## Residues -/

/-- Only one integer of 64 bits is congruent to a given one. -/
theorem eq_of_congruent {m n : Int64} (h : m.toInt ≡ n.toInt [ZMOD 2 ^ 64]) : m = n := by
  have hdvd : 2 ^ 64 ∣ n.toInt - m.toInt := h.dvd
  have hm := m.le_toInt
  have hm' := m.toInt_lt
  have hn := n.le_toInt
  have hn' := n.toInt_lt
  have hsmall : |n.toInt - m.toInt| < 2 ^ 64 := by
    rw [abs_lt]
    omega
  have hzero := Int.eq_zero_of_abs_lt_dvd hdvd hsmall
  exact Int64.toInt_inj.1 (by omega)

theorem Wraps.eq_int {result : Except OperandFault Value} {n : Int64} (h : Wraps result n.toInt) :
    result = .ok (.int n) := by
  obtain ⟨m, hm, hcongruent⟩ := h
  rw [hm, eq_of_congruent hcongruent]

theorem bmod_congruent (x : Int) : x.bmod (2 ^ 64) ≡ x [ZMOD 2 ^ 64] :=
  Int.bmod_emod

/-- What wraps to an exact result wraps to every congruent one. -/
theorem Wraps.congr {result : Except OperandFault Value} {x y : Int} (h : Wraps result x)
    (hxy : x ≡ y [ZMOD 2 ^ 64]) : Wraps result y := by
  obtain ⟨n, hn, hcongruent⟩ := h
  exact ⟨n, hn, hcongruent.trans hxy⟩

section

variable (l r : Int64)

theorem wraps_add : Wraps (add (int l) (int r)) (l.toInt + r.toInt) :=
  ⟨l + r, rfl, Int64.toInt_add l r ▸ bmod_congruent _⟩

theorem wraps_sub : Wraps (sub (int l) (int r)) (l.toInt - r.toInt) :=
  ⟨l - r, rfl, Int64.toInt_sub l r ▸ bmod_congruent _⟩

theorem wraps_mul : Wraps (mul (int l) (int r)) (l.toInt * r.toInt) :=
  ⟨l * r, rfl, Int64.toInt_mul l r ▸ bmod_congruent _⟩

theorem wraps_neg : Wraps (neg (int l)) (-l.toInt) :=
  ⟨-l, rfl, Int64.toInt_neg l ▸ bmod_congruent _⟩

/-! ## Division -/

theorem div_zero : div (int l) (int 0) = .error .divisionByZero := rfl

theorem rem_zero : rem (int l) (int 0) = .error .divisionByZero := rfl

variable {r : Int64}

theorem wraps_div (h : r ≠ 0) : Wraps (div (int l) (int r)) (l.toInt.tdiv r.toInt) :=
  ⟨l / r, if_neg h, Int64.toInt_div l r ▸ bmod_congruent _⟩

/-- The remainder always has room. -/
theorem rem_eq (h : r ≠ 0) :
    ∃ m, rem (int l) (int r) = .ok (int m) ∧ m.toInt = l.toInt.tmod r.toInt :=
  ⟨l % r, if_neg h, Int64.toInt_mod l r⟩

theorem div_ne_divisionByZero (h : r ≠ 0) : div (int l) (int r) ≠ .error .divisionByZero := by
  obtain ⟨q, hq, -⟩ := wraps_div l h
  rw [hq]
  nofun

theorem rem_ne_divisionByZero (h : r ≠ 0) : rem (int l) (int r) ≠ .error .divisionByZero := by
  obtain ⟨m, hm, -⟩ := rem_eq l h
  rw [hm]
  nofun

end

theorem abs_tmod_lt (a : Int) {b : Int} (h : b ≠ 0) : |a.tmod b| < |b| := by
  rw [Int.abs_eq_natAbs, Int.abs_eq_natAbs, Int.natAbs_tmod, Int.ofNat_lt]
  exact Nat.mod_lt _ (Int.natAbs_pos.2 h)

theorem tmod_eq_zero_or_sign (a b : Int) : a.tmod b = 0 ∨ (a.tmod b).sign = a.sign := by
  by_cases h : b ∣ a
  · exact .inl (Int.tmod_eq_zero_of_dvd h)
  · exact .inr ((Int.sign_tmod a b).trans (if_neg h))

/-- A quotient that was wrapped times the divisor, and the remainder added, is the dividend. -/
theorem add_mul_div_rem {l r q m : Int64} (hq : q.toInt ≡ l.toInt.tdiv r.toInt [ZMOD 2 ^ 64])
    (hm : m.toInt = l.toInt.tmod r.toInt) :
    ∃ p, mul (int q) (int r) = .ok (int p) ∧ add (int p) (int m) = .ok (int l) := by
  obtain ⟨p, hp, hproduct⟩ := wraps_mul q r
  refine ⟨p, hp, ((wraps_add p m).congr ?_).eq_int⟩
  calc p.toInt + m.toInt
      ≡ q.toInt * r.toInt + m.toInt [ZMOD 2 ^ 64] := hproduct.add_right _
    _ ≡ l.toInt.tdiv r.toInt * r.toInt + m.toInt [ZMOD 2 ^ 64] := (hq.mul_right _).add_right _
    _ = l.toInt := by rw [hm, Int.tdiv_mul_add_tmod]

/-- Sums, differences, products and negatives of integers are exact modulo `2 ^ 64`. Quotients and
remainders fail exactly if the divisor is zero. Otherwise the quotient is the truncated one modulo
`2 ^ 64`, the remainder is smaller than the divisor and is zero or has the sign of the dividend, and
the two give the dividend back. -/
theorem integer_arithmetic (l r : Int64) :
    Wraps (add (int l) (int r)) (l.toInt + r.toInt) ∧
    Wraps (sub (int l) (int r)) (l.toInt - r.toInt) ∧
    Wraps (mul (int l) (int r)) (l.toInt * r.toInt) ∧
    Wraps (neg (int l)) (-l.toInt) ∧
    (div (int l) (int r) = .error .divisionByZero ↔ r = 0) ∧
    (rem (int l) (int r) = .error .divisionByZero ↔ r = 0) ∧
    (r ≠ 0 → Wraps (div (int l) (int r)) (l.toInt.tdiv r.toInt) ∧
      ∃ q m p : Int64, div (int l) (int r) = .ok (int q) ∧ rem (int l) (int r) = .ok (int m) ∧
        |m.toInt| < |r.toInt| ∧ (m.toInt = 0 ∨ m.toInt.sign = l.toInt.sign) ∧
        mul (int q) (int r) = .ok (int p) ∧ add (int p) (int m) = .ok (int l)) := by
  refine ⟨wraps_add l r, wraps_sub l r, wraps_mul l r, wraps_neg l, ⟨fun h => ?_, ?_⟩,
    ⟨fun h => ?_, ?_⟩, fun hr => ?_⟩
  · exact not_not.1 fun hr => div_ne_divisionByZero l hr h
  · rintro rfl
    exact div_zero l
  · exact not_not.1 fun hr => rem_ne_divisionByZero l hr h
  · rintro rfl
    exact rem_zero l
  · obtain ⟨q, hq, hquotient⟩ := wraps_div l hr
    obtain ⟨m, hm, hremainder⟩ := rem_eq l hr
    obtain ⟨p, hp, hsum⟩ := add_mul_div_rem hquotient hremainder
    have hdivisor : r.toInt ≠ 0 := fun h => hr (Int64.toInt_inj.1 h)
    refine ⟨⟨q, hq, hquotient⟩, q, m, p, hq, hm, ?_, ?_, hp, hsum⟩
    · rw [hremainder]
      exact abs_tmod_lt _ hdivisor
    · rw [hremainder]
      exact tmod_eq_zero_or_sign _ _

/-- The quotient without room: the least integer divided by minus one is itself, and leaves
nothing. -/
theorem integer_arithmetic_least : (-1 : Int64) ≠ 0 ∧
    Wraps (div (int Int64.minValue) (int (-1))) (2 ^ 63) ∧
    div (int Int64.minValue) (int (-1)) = .ok (int Int64.minValue) ∧
    ∃ q m p : Int64, div (int Int64.minValue) (int (-1)) = .ok (int q) ∧
      rem (int Int64.minValue) (int (-1)) = .ok (int m) ∧ |m.toInt| < 1 ∧
      mul (int q) (int (-1)) = .ok (int p) ∧ add (int p) (int m) = .ok (int Int64.minValue) := by
  have hr : (-1 : Int64) ≠ 0 := by decide
  obtain ⟨-, -, -, -, -, -, hdivision⟩ := integer_arithmetic Int64.minValue (-1)
  obtain ⟨hwraps, q, m, p, hq, hm, hsmall, -, hp, hsum⟩ := hdivision hr
  exact ⟨hr, hwraps, rfl, q, m, p, hq, hm, hsmall, hp, hsum⟩

end Scripting.Value

import Mathlib.Order.Compare
import Mathlib.Tactic.SplitIfs

/-!
# Proofs: the order of bytes and of code points

Strings are ordered by their code points. The order of their bytes in UTF-8 is the same: of two code
points the one with more bytes is greater and so is its first byte, and between those with equally
many bytes the bytes decide like digits, the most significant one first.
-/

namespace Scripting.Text

/-- The code points of a string. -/
def codePoints (s : String) : List Nat :=
  s.toList.map Char.toNat

/-- The bytes of a string in UTF-8. -/
def bytes (s : String) : List UInt8 :=
  s.toByteArray.data.toList

theorem bytes_eq (s : String) : bytes s = s.toList.flatMap String.utf8EncodeChar := by
  rw [bytes, ← String.utf8Encode_toList, List.utf8Encode, List.data_toByteArray]

/-! ## Rows of bytes -/

section

variable {x y : UInt8} {s t : List UInt8}

theorem compare_cons_eq_lt_iff : compare (x :: s) (y :: t) = .lt ↔
    x.toNat < y.toNat ∨ x.toNat = y.toNat ∧ compare s t = .lt := by
  have hlt : compare x y = .lt ↔ x < y := compareOfLessAndEq_eq_lt
  have heq : compare x y = .eq ↔ x = y := by simp
  rw [List.compare_cons_cons, Ordering.then_eq_lt, hlt, heq, UInt8.lt_iff_toNat_lt,
    UInt8.toNat_inj]

theorem compare_append_same (front : List UInt8) :
    compare (front ++ s) (front ++ t) = compare s t := by
  induction front with
  | nil => rfl
  | cons z front ih =>
    rw [List.cons_append, List.cons_append, List.compare_cons_cons, Std.compare_self, ih,
      Ordering.eq_then]

/-! ## Bytes of one code point -/

theorem codePoint_lt (c : Char) : c.toNat < 0x110000 := by
  have hvalid := c.valid
  simp only [UInt32.isValidChar, Nat.isValidChar] at hvalid
  change c.val.toNat < 0x110000
  omega

/-- Of two code points, the bytes of the smaller one come first, whatever follows them. -/
theorem compare_encoded_of_lt {c d : Char} (h : c.toNat < d.toNat) :
    compare (String.utf8EncodeChar c ++ s) (String.utf8EncodeChar d ++ t) = .lt := by
  have hd := codePoint_lt d
  have hval : ∀ e : Char, e.val.toNat = e.toNat := fun _ => rfl
  -- The bytes come from the quotients by powers of 64; each of these is one of the one before it.
  have hthird : ∀ n : Nat, n / 64 / 64 = n / 4096 := fun n => Nat.div_div_eq_div_mul n 64 64
  have hfourth : ∀ n : Nat, n / 4096 / 64 = n / 262144 := fun n => Nat.div_div_eq_div_mul n 4096 64
  unfold String.utf8EncodeChar
  simp only [hval]
  generalize c.toNat = m at *
  generalize d.toNat = n at *
  have hm := hthird m
  have hm' := hfourth m
  have hn := hthird n
  have hn' := hfourth n
  -- One case for each pair of lengths. With the same length the first bytes that differ decide.
  split_ifs <;>
    simp only [List.cons_append, List.nil_append, compare_cons_eq_lt_iff, UInt8.toNat_ofNat'] <;>
    simp (disch := omega) only [Nat.mod_eq_of_lt] <;> omega

theorem compare_encoded (c d : Char) (s t : List UInt8) :
    compare (String.utf8EncodeChar c ++ s) (String.utf8EncodeChar d ++ t) =
      (compare c.toNat d.toNat).then (compare s t) := by
  rcases Nat.lt_trichotomy c.toNat d.toNat with h | h | h
  · rw [compare_encoded_of_lt h, Nat.compare_eq_lt.2 h, Ordering.lt_then]
  · rw [Char.toNat_inj.1 h, compare_append_same, Std.compare_self, Ordering.eq_then]
  · rw [Std.OrientedOrd.eq_swap, compare_encoded_of_lt h, Nat.compare_eq_gt.2 h, Ordering.gt_then,
      Ordering.swap_lt]

end

/-! ## Strings -/

theorem compare_flatMap_encoded (s t : List Char) :
    compare (s.flatMap String.utf8EncodeChar) (t.flatMap String.utf8EncodeChar) =
      compare (s.map Char.toNat) (t.map Char.toNat) := by
  induction s generalizing t with
  | nil =>
    cases t with
    | nil => rfl
    | cons d t =>
      obtain ⟨x, rest, hd⟩ := List.exists_cons_of_ne_nil (String.utf8EncodeChar_ne_nil (c := d))
      rw [List.flatMap_cons, hd]
      rfl
  | cons c s ih =>
    cases t with
    | nil =>
      obtain ⟨x, rest, hc⟩ := List.exists_cons_of_ne_nil (String.utf8EncodeChar_ne_nil (c := c))
      rw [List.flatMap_cons, hc]
      rfl
    | cons d t =>
      rw [List.flatMap_cons, List.flatMap_cons, compare_encoded, ih, List.map_cons, List.map_cons,
        List.compare_cons_cons]

/-- The order of the bytes is the order of the code points. -/
theorem compare_bytes (s t : String) :
    compare (bytes s) (bytes t) = compare (codePoints s) (codePoints t) := by
  rw [bytes_eq, bytes_eq, compare_flatMap_encoded, codePoints, codePoints]

theorem lt_iff_compare_eq_lt (s t : List Char) :
    s < t ↔ compare (s.map Char.toNat) (t.map Char.toNat) = .lt := by
  induction s generalizing t with
  | nil => cases t <;> simp
  | cons c s ih =>
    cases t with
    | nil => simp
    | cons d t =>
      rw [List.cons_lt_cons_iff, ih, List.map_cons, List.map_cons, List.compare_cons_cons,
        Ordering.then_eq_lt, Nat.compare_eq_lt, Nat.compare_eq_eq, Char.toNat_inj]
      rfl

theorem codePoints_injective {s t : String} (h : codePoints s = codePoints t) : s = t :=
  String.toList_inj.1 ((List.map_inj_right fun _ _ => Char.toNat_inj.1).1 h)

/-- Strings are ordered by their code points. -/
theorem compare_eq (s t : String) : compare s t = compare (codePoints s) (codePoints t) := by
  have hlt : ∀ s t : String, compare (codePoints s) (codePoints t) = .lt → compare s t = .lt :=
    fun s t h => compareOfLessAndEq_eq_lt.2 ((lt_iff_compare_eq_lt _ _).2 h)
  cases h : compare (codePoints s) (codePoints t) with
  | lt => exact hlt s t h
  | eq =>
    obtain rfl := codePoints_injective (Std.compare_eq_iff_eq.1 h)
    exact Std.compare_self
  | gt =>
    have hswap : compare (codePoints t) (codePoints s) = .lt := Std.OrientedCmp.gt_iff_lt.1 h
    exact Std.OrientedCmp.gt_iff_lt.2 (hlt t s hswap)

end Scripting.Text

import Mathlib.Data.List.Forall2
import Scripting.Proofs.ByteOrder
import Scripting.Value.Identity

/-!
# Proofs: equality, order and sameness

Equality and order are partial: they are defined for values of one type, and not for every type.
What each of them can yield is said once, as a relation, and the laws follow by cases of it.

Sameness is defined for all values. It goes down into the values that a signal carries, where
anything may stand, also a float that is no number and is not even the same as itself. So it is no
equivalence, but it is symmetric and transitive.
-/

namespace Scripting

/-! ## Equality of floats -/

section

open Float.Model

/-- Equal floats are one float, or zeros of any signs. -/
theorem eq_or_zeros_of_compare {x y : UnpackedFloat} (h : x.compare y = some .eq) :
    x = y ∨ ∃ s t, x = .zero s ∧ y = .zero t := by
  have hparts : ∀ {e f : Int} {m n : Nat},
      (compare e f).then (compare m n) = .eq → e = f ∧ m = n := fun h =>
    (Ordering.then_eq_eq.1 h).imp Std.compare_eq_iff_eq.1 Std.compare_eq_iff_eq.1
  cases x with
  | notANumber => cases h
  | infinity s =>
    cases y with
    | infinity t => cases s <;> cases t <;> cases h <;> exact .inl rfl
    | _ => cases s <;> cases h
  | zero s =>
    cases y with
    | zero t => exact .inr ⟨s, t, rfl, rfl⟩
    | infinity t | finite t => cases t <;> cases h
    | notANumber => cases h
  | finite s =>
    cases y with
    | finite t =>
      cases s <;> cases t
      case negative.negative =>
        obtain ⟨rfl, rfl⟩ := hparts (Ordering.swap_eq_eq.1 (Option.some.inj h))
        exact .inl rfl
      case positive.positive =>
        obtain ⟨rfl, rfl⟩ := hparts (Option.some.inj h)
        exact .inl rfl
      all_goals cases h
    | infinity t => cases t <;> cases h
    | zero | notANumber => cases s <;> cases h

theorem float_beq_iff {x y : Float} :
    (x == y) = true ↔ x.toModel.unpack.compare y.toModel.unpack = some .eq := by
  have hbeq : (x == y) = (x.toModel.unpack.compare y.toModel.unpack == some .eq) := rfl
  rw [hbeq, beq_iff_eq]

theorem float_beq_symm {x y : Float} (h : (x == y) = true) : (y == x) = true := by
  rw [float_beq_iff] at h ⊢
  rcases eq_or_zeros_of_compare h with heq | ⟨s, t, hx, hy⟩
  · rwa [heq] at h ⊢
  · rw [hx, hy]
    rfl

theorem float_beq_comm {x y : Float} : (x == y) = (y == x) :=
  Bool.eq_iff_iff.2 ⟨float_beq_symm, float_beq_symm⟩

theorem float_beq_trans {x y z : Float} (hxy : (x == y) = true) (hyz : (y == z) = true) :
    (x == z) = true := by
  rw [float_beq_iff] at hxy hyz ⊢
  rcases eq_or_zeros_of_compare hxy with heq | ⟨s, t, hx, hy⟩
  · rwa [heq]
  · rw [hy] at hyz
    rcases eq_or_zeros_of_compare hyz with heq | ⟨-, u, -, hz⟩
    · rw [hx, ← heq]
      rfl
    · rw [hx, hz]
      rfl

end

namespace Value

/-! ## Equality -/

/-- What comparing two values for equality yields. -/
inductive Equated : Value → Value → Bool → Prop
  | nil : Equated nil nil true
  | bool {x y r} (h : (x == y) = r) : Equated (bool x) (bool y) r
  | int {x y r} (h : (x == y) = r) : Equated (int x) (int y) r
  | float {x y r} (h : (x == y) = r) : Equated (float x) (float y) r
  | string {x y r} (h : (x == y) = r) : Equated (string x) (string y) r

section

variable {a b c : Value} {r : Bool}

theorem equals_eq_ok_iff : a.equals b = .ok r ↔ Equated a b r := by
  refine ⟨fun h => ?_, fun h => ?_⟩
  · unfold equals at h
    split at h <;> cases h <;> constructor <;> rfl
  · cases h with
    | nil => rfl
    | bool h | int h | float h | string h => exact congrArg Except.ok h

/-- Values of one type are comparable, unless it is the type of functions or of signals. -/
theorem equals_fails_iff : (∃ fault, a.equals b = .error fault) ↔
    a.type ≠ b.type ∨ a.type = .function ∧ b.type = .function ∨
      a.type = .control ∧ b.type = .control := by
  cases a <;> cases b <;> simp [equals, type]

theorem Equated.symm (h : Equated a b r) : Equated b a r := by
  cases h with
  | nil => exact .nil
  | bool h => exact .bool (Bool.beq_comm.trans h)
  | int h => exact .int (BEq.comm.trans h)
  | float h => exact .float (float_beq_comm.trans h)
  | string h => exact .string (BEq.comm.trans h)

theorem Equated.trans (hab : Equated a b true) (hbc : Equated b c true) : Equated a c true := by
  cases hab with
  | nil => exact hbc
  | bool hab =>
    cases hbc with
    | bool hbc => exact .bool (BEq.trans hab hbc)
  | int hab =>
    cases hbc with
    | int hbc => exact .int (BEq.trans hab hbc)
  | float hab =>
    cases hbc with
    | float hbc => exact .float (float_beq_trans hab hbc)
  | string hab =>
    cases hbc with
    | string hbc => exact .string (BEq.trans hab hbc)

theorem equals_symm (h : a.equals b = .ok r) : b.equals a = .ok r :=
  equals_eq_ok_iff.2 (equals_eq_ok_iff.1 h).symm

theorem equals_trans (hab : a.equals b = .ok true) (hbc : b.equals c = .ok true) :
    a.equals c = .ok true :=
  equals_eq_ok_iff.2 ((equals_eq_ok_iff.1 hab).trans (equals_eq_ok_iff.1 hbc))

/-- Nothing but a float can differ from itself. -/
theorem equals_self (ha : a.type ≠ .float) (h : a.equals a = .ok r) : r = true := by
  cases equals_eq_ok_iff.1 h with
  | nil => rfl
  | float => exact absurd rfl ha
  | bool h | int h | string h => exact h.symm.trans (beq_self_eq_true _)

theorem eq_of_equals (ha : a.type ≠ .float) (h : a.equals b = .ok true) : a = b := by
  cases equals_eq_ok_iff.1 h with
  | nil => rfl
  | float => exact absurd rfl ha
  | bool h | int h | string h => rw [beq_iff_eq.1 h]

/-! ## Order -/

/-- What the order of two values that are no floats can be. -/
inductive Ordered : Value → Value → Ordering → Prop
  | int {x y o} (h : Ord.compare x y = o) : Ordered (int x) (int y) o
  | string {x y o} (h : Ord.compare x y = o) : Ordered (string x) (string y) o

variable {o o' : Ordering}

theorem compare_eq_ok_iff (ha : a.type ≠ .float) : a.compare b = .ok o ↔ Ordered a b o := by
  refine ⟨fun h => ?_, fun h => ?_⟩
  · unfold compare at h
    split at h
    case h_2 => exact absurd rfl ha
    all_goals cases h
    · exact .int rfl
    · exact .string rfl
  · cases h with
    | int h | string h => exact congrArg Except.ok h

/-- Only integers and strings have an order, besides floats. -/
theorem compare_succeeds_iff (ha : a.type ≠ .float) : (∃ o, a.compare b = .ok o) ↔
    a.type = .int ∧ b.type = .int ∨ a.type = .string ∧ b.type = .string := by
  cases a with
  | float => exact absurd rfl ha
  | _ => cases b <;> simp [compare, type]

theorem Ordered.type_ne_float (h : Ordered a b o) : b.type ≠ .float := by
  cases h <;> nofun

theorem Ordered.swap (h : Ordered a b o) : Ordered b a o.swap := by
  cases h with
  | int h => exact .int (h ▸ Std.OrientedOrd.eq_swap)
  | string h => exact .string (h ▸ Std.OrientedOrd.eq_swap)

theorem compare_eq_then {α : Type} [Ord α] [Std.TransOrd α] [Std.LawfulEqOrd α] {x y z : α}
    (hxy : Ord.compare x y = o) (hyz : Ord.compare y z = o') (ho : o.isLE) (ho' : o'.isLE) :
    Ord.compare x z = o.then o' := by
  subst hyz
  cases o with
  | lt => exact Std.TransCmp.lt_of_lt_of_isLE hxy ho'
  | eq => exact Std.compare_eq_iff_eq.1 hxy ▸ rfl
  | gt => cases ho

/-- A chain that does not fall rises if one of its steps does. -/
theorem Ordered.trans (hab : Ordered a b o) (hbc : Ordered b c o') (ho : o.isLE) (ho' : o'.isLE) :
    Ordered a c (o.then o') := by
  cases hab with
  | int hab =>
    cases hbc with
    | int hbc => exact .int (compare_eq_then hab hbc ho ho')
  | string hab =>
    cases hbc with
    | string hbc => exact .string (compare_eq_then hab hbc ho ho')

theorem compare_eq_iff_beq {α : Type} [Ord α] [Std.LawfulEqOrd α] [BEq α] [LawfulBEq α] {x y : α} :
    Ord.compare x y = .eq ↔ (x == y) = true :=
  Std.compare_eq_iff_eq.trans beq_iff_eq.symm

/-- Neither of two equal values comes first. -/
theorem Ordered.eq_iff (h : Ordered a b o) : o = .eq ↔ Equated a b true := by
  cases h with
  | int h =>
    refine ⟨fun ho => .int (compare_eq_iff_beq.1 (h.trans ho)), fun hequal => ?_⟩
    cases hequal with
    | int hequal => exact h.symm.trans (compare_eq_iff_beq.2 hequal)
  | string h =>
    refine ⟨fun ho => .string (compare_eq_iff_beq.1 (h.trans ho)), fun hequal => ?_⟩
    cases hequal with
    | string hequal => exact h.symm.trans (compare_eq_iff_beq.2 hequal)

theorem compare_string (s t : String) : (string s).compare (string t) =
    .ok (Ord.compare (Text.codePoints s) (Text.codePoints t)) :=
  congrArg Except.ok (Text.compare_eq s t)

end

/-! ## Sameness -/

/-- The values compare equal, are one function, or are signals with the same content. -/
inductive Same : Value → Value → Prop
  | equal {a b} (h : a.equals b = .ok true) : Same a b
  | function {f g : Function} (h : f.id = g.id) : Same (function f) (function g)
  | returning {as bs} (h : List.Forall₂ Same as bs) :
      Same (control (.returning as)) (control (.returning bs))
  | breaking : Same (control .breaking) (control .breaking)
  | continuing : Same (control .continuing) (control .continuing)

theorem toOption_getD_eq_true_iff {result : Except OperandFault Bool} :
    result.toOption.getD false = true ↔ result = .ok true := by
  cases result <;> simp [Except.toOption]

-- Here and below, the induction is on the first value, down into the lists that signals carry.
mutual

theorem Same.of_same : ∀ {a b : Value}, a.same b = true → Same a b
  | .function f, .function g, h => by
    rw [same, beq_iff_eq] at h
    exact .function h
  | .control (.returning as), .control (.returning bs), h => by
    rw [same, Signal.same] at h
    exact .returning (Same.of_sameAll h)
  | .control .breaking, .control .breaking, _ => .breaking
  | .control .continuing, .control .continuing, _ => .continuing
  | .nil, b, h | .bool _, b, h | .int _, b, h | .float _, b, h | .string _, b, h => by
    rw [same] at h
    exact .equal (toOption_getD_eq_true_iff.1 h)

theorem Same.of_sameAll : ∀ {as bs : List Value}, sameAll as bs = true → List.Forall₂ Same as bs
  | [], [], _ => .nil
  | a :: as, b :: bs, h => by
    rw [sameAll, Bool.and_eq_true] at h
    exact .cons (Same.of_same h.1) (Same.of_sameAll h.2)

end

mutual

theorem Same.same : ∀ {a b : Value}, Same a b → a.same b = true
  | _, _, .function h => by
    rw [Value.same, beq_iff_eq]
    exact h
  | .control (.returning as), _, .returning h => by
    rw [Value.same, Signal.same]
    exact Same.sameAll h
  | _, _, .breaking | _, _, .continuing => by rw [Value.same, Signal.same]
  | a, b, .equal h => by
    have hsame := toOption_getD_eq_true_iff.2 h
    cases equals_eq_ok_iff.1 h <;> rwa [Value.same]

theorem Same.sameAll : ∀ {as bs : List Value}, List.Forall₂ Same as bs → sameAll as bs = true
  | [], _, .nil => by rw [Value.sameAll]
  | a :: as, _, .cons h hrest => by
    rw [Value.sameAll, Bool.and_eq_true]
    exact ⟨Same.same h, Same.sameAll hrest⟩

end

theorem same_iff {a b : Value} : a.same b = true ↔ Same a b :=
  ⟨Same.of_same, Same.same⟩

mutual

theorem Same.symm : ∀ {a b : Value}, Same a b → Same b a
  | _, _, .equal h => .equal (equals_symm h)
  | _, _, .function h => .function h.symm
  | .control (.returning _), _, .returning h => .returning (Same.symmAll h)
  | _, _, .breaking => .breaking
  | _, _, .continuing => .continuing

theorem Same.symmAll : ∀ {as bs : List Value}, List.Forall₂ Same as bs → List.Forall₂ Same bs as
  | [], _, .nil => .nil
  | _ :: _, _, .cons h hrest => .cons (Same.symm h) (Same.symmAll hrest)

end

/-- What has an equal is the same as its equals only. -/
theorem Same.equals_of_equals {a b c : Value} (hab : a.equals b = .ok true) (hbc : Same b c) :
    b.equals c = .ok true := by
  cases hbc with
  | equal hbc => exact hbc
  | function | returning | breaking | continuing => cases equals_eq_ok_iff.1 hab

mutual

theorem Same.trans : ∀ {a b c : Value}, Same a b → Same b c → Same a c
  | _, _, _, .equal hab, hbc => .equal (equals_trans hab (Same.equals_of_equals hab hbc))
  | _, _, _, .function hab, .function hbc => .function (hab.trans hbc)
  | .control (.returning _), _, _, .returning hab, .returning hbc =>
    .returning (Same.transAll hab hbc)
  | _, _, _, .breaking, .breaking => .breaking
  | _, _, _, .continuing, .continuing => .continuing

theorem Same.transAll : ∀ {as bs cs : List Value}, List.Forall₂ Same as bs →
    List.Forall₂ Same bs cs → List.Forall₂ Same as cs
  | [], _, _, .nil, .nil => .nil
  | _ :: _, _, _, .cons hab hrest, .cons hbc hrest' =>
    .cons (Same.trans hab hbc) (Same.transAll hrest hrest')

end

/-! ## The three together -/

/-- The order: where it is defined, its reverse, its chains, and its agreement with equality. -/
structure OrderLaws (a b c : Value) : Prop where
  succeeds_iff : (∃ o, a.compare b = .ok o) ↔
    a.type = .int ∧ b.type = .int ∨ a.type = .string ∧ b.type = .string
  swap {o} (hab : a.compare b = .ok o) : b.compare a = .ok o.swap
  trans {o o'} (hab : a.compare b = .ok o) (hbc : b.compare c = .ok o') (ho : o.isLE)
    (ho' : o'.isLE) : a.compare c = .ok (o.then o')
  eq_iff_equals {o} (hab : a.compare b = .ok o) : o = .eq ↔ a.equals b = .ok true

/-- Equality: where it is not defined, and that it is an equivalence elsewhere, which tells all
values apart. -/
structure EqualityLaws (a b c : Value) : Prop where
  fails_iff : (∃ fault, a.equals b = .error fault) ↔
    a.type ≠ b.type ∨ a.type = .function ∧ b.type = .function ∨
      a.type = .control ∧ b.type = .control
  refl {r} (haa : a.equals a = .ok r) : r = true
  symm {r} (hab : a.equals b = .ok r) : b.equals a = .ok r
  trans (hab : a.equals b = .ok true) (hbc : b.equals c = .ok true) : a.equals c = .ok true
  eq_of_equals (hab : a.equals b = .ok true) : a = b

/-- Sameness: what it means, and that it goes both ways and along chains. -/
structure SamenessLaws (a b c : Value) : Prop where
  iff_same : a.same b = true ↔ Same a b
  comm : a.same b = b.same a
  trans (hab : a.same b = true) (hbc : b.same c = true) : a.same c = true

section

variable {a : Value}

theorem orderLaws (ha : a.type ≠ .float) (b c : Value) : OrderLaws a b c where
  succeeds_iff := compare_succeeds_iff ha
  swap hab := by
    have hordered := (compare_eq_ok_iff ha).1 hab
    exact (compare_eq_ok_iff hordered.type_ne_float).2 hordered.swap
  trans hab hbc ho ho' := by
    have hordered := (compare_eq_ok_iff ha).1 hab
    have hordered' := (compare_eq_ok_iff hordered.type_ne_float).1 hbc
    exact (compare_eq_ok_iff ha).2 (hordered.trans hordered' ho ho')
  eq_iff_equals hab := ((compare_eq_ok_iff ha).1 hab).eq_iff.trans equals_eq_ok_iff.symm

theorem equalityLaws (ha : a.type ≠ .float) (b c : Value) : EqualityLaws a b c where
  fails_iff := equals_fails_iff
  refl := equals_self ha
  symm := equals_symm
  trans := equals_trans
  eq_of_equals := eq_of_equals ha

theorem samenessLaws (a b c : Value) : SamenessLaws a b c where
  iff_same := same_iff
  comm := by
    rw [Bool.eq_iff_iff, same_iff, same_iff]
    exact ⟨Same.symm, Same.symm⟩
  trans hab hbc := same_iff.2 ((same_iff.1 hab).trans (same_iff.1 hbc))

/-- Equality and order are coherent on values that are no floats; strings have the order of their
code points, which is that of their bytes; and sameness is symmetric and transitive for all
values. -/
theorem comparisons_coherent (ha : a.type ≠ .float) (b c : Value) :
    OrderLaws a b c ∧ EqualityLaws a b c ∧
    (∀ s t : String, (string s).compare (string t) =
        .ok (Ord.compare (Text.codePoints s) (Text.codePoints t)) ∧
      Ord.compare (Text.bytes s) (Text.bytes t) =
        Ord.compare (Text.codePoints s) (Text.codePoints t)) ∧
    ∀ x y z : Value, SamenessLaws x y z :=
  ⟨orderLaws ha b c, equalityLaws ha b c, fun s t => ⟨compare_string s t, Text.compare_bytes s t⟩,
    samenessLaws⟩

/-- Three code points of one, three and four bytes, the last of them beyond 16 bits. -/
theorem comparisons_coherent_strings : (string "z").type ≠ .float ∧
    (string "z").compare (string "～") = .ok .lt ∧ (string "～").compare (string "😀") = .ok .lt ∧
    (string "z").compare (string "😀") = .ok .lt ∧ (string "～").compare (string "z") = .ok .gt := by
  have hz : (string "z").type ≠ .float := by decide
  obtain ⟨horder, -, hstrings, -⟩ := comparisons_coherent hz (string "～") (string "😀")
  have hab : (string "z").compare (string "～") = .ok .lt := (hstrings _ _).1
  have hbc : (string "～").compare (string "😀") = .ok .lt := (hstrings _ _).1
  exact ⟨hz, hab, hbc, horder.trans hab hbc rfl rfl, horder.swap hab⟩

end

end Value

end Scripting

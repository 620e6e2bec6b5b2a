import Scripting.Decimal.Reading
import Scripting.Token.Scan

/-!
# Proofs: the texts of number tokens

The scanner makes an integer token of a row of digits and a float token of two such rows with a
point between them. So every float token denotes a number, and an integer token denotes one unless
it is too large.
-/

namespace Scripting

/-! ## Rows of digits -/

namespace Decimal

/-- A row of digits with at least one. -/
def IsNatural (text : List Char) : Prop :=
  text ≠ [] ∧ ∀ c ∈ text, c.isDigit = true

/-- Two rows of digits with a point between them. -/
def IsFraction (text : List Char) : Prop :=
  ∃ whole fraction, text = whole ++ '.' :: fraction ∧ IsNatural whole ∧ IsNatural fraction

variable {text whole : List Char} {limit value : Nat} {beyond : IntegerFault}

/-- The value of digits that follow others of the given value. -/
def digitsAfter (value : Nat) (digits : List Char) : Nat :=
  digits.foldl (fun n c => 10 * n + digitValue c) value

theorem le_digitsAfter (value : Nat) (digits : List Char) : value ≤ digitsAfter value digits := by
  induction digits generalizing value with
  | nil => exact Nat.le_refl _
  | cons c rest ih => exact Nat.le_trans (by omega) (ih (10 * value + digitValue c))

/-- Digits are read unless their value exceeds the limit. -/
theorem readDigits_eq (hvalue : value ≤ limit) (h : ∀ c ∈ text, c.isDigit = true) :
    readDigits limit beyond value text =
      if digitsAfter value text ≤ limit then .ok (digitsAfter value text) else .error beyond := by
  induction text generalizing value with
  | nil =>
    rw [readDigits]
    exact (if_pos hvalue).symm
  | cons c rest ih =>
    have hdigit : c.isDigit = true := h c List.mem_cons_self
    have hafter : digitsAfter value (c :: rest) = digitsAfter (10 * value + digitValue c) rest := rfl
    rw [readDigits, if_pos hdigit, hafter]
    by_cases hle : 10 * value + digitValue c ≤ limit
    · rw [if_pos hle]
      exact ih hle fun c hc => h c (List.mem_cons_of_mem _ hc)
    · have hlarge := le_digitsAfter (10 * value + digitValue c) rest
      rw [if_neg hle, if_neg (by omega)]

/-- Digits are no sign. -/
theorem readInteger_eq (h : IsNatural text) (bound : Nat) :
    readInteger bound text = (readDigits (bound - 1) .tooLarge 0 text).map Int.ofNat := by
  have hsign : ∀ {c : Char} {rest : List Char}, text = c :: rest → c.isDigit = true :=
    fun e => h.2 _ (e ▸ List.mem_cons_self)
  unfold readInteger
  split
  · exact absurd rfl h.1
  · exact absurd (hsign rfl) (by decide)
  · exact absurd (hsign rfl) (by decide)
  · exact absurd (hsign rfl) (by decide)
  · exact absurd (hsign rfl) (by decide)
  · rfl

/-- An integer token denotes a number of 64 bits exactly if its value is small enough. -/
theorem readInt64_ok_iff (h : IsNatural text) :
    (∃ n, readInt64 text = .ok n) ↔ digitsValue text ≤ Nat.pow 2 63 - 1 := by
  have hvalue : digitsAfter 0 text = digitsValue text := rfl
  unfold readInt64
  rw [readInteger_eq h, readDigits_eq (Nat.zero_le _) h.2, hvalue]
  by_cases hle : digitsValue text ≤ Nat.pow 2 63 - 1
  · rw [if_pos hle]
    exact iff_of_true ⟨_, rfl⟩ hle
  · rw [if_neg hle]
    refine iff_of_false ?_ hle
    rintro ⟨n, hn⟩
    cases hn

theorem takeWhile_digits (h : ∀ c ∈ whole, c.isDigit = true) (rest : List Char)
    (hrest : ∀ c, rest.head? = some c → c.isDigit = false) :
    (whole ++ rest).takeWhile Char.isDigit = whole := by
  rw [List.takeWhile_append_of_pos h]
  cases rest with
  | nil => simp
  | cons c rest => simp [hrest c rfl]

/-- A float token has digits, a point and digits. -/
theorem readScientific_ok (h : IsFraction text) : ∃ x, readScientific text = some x := by
  obtain ⟨whole, fraction, rfl, hwhole, hfraction⟩ := h
  have htake : (whole ++ '.' :: fraction).takeWhile Char.isDigit = whole :=
    takeWhile_digits hwhole.2 _ fun c hc => by cases hc; rfl
  have htake' : fraction.takeWhile Char.isDigit = fraction := by
    simpa using takeWhile_digits hfraction.2 [] nofun
  have hempty : whole.isEmpty = false := by
    cases whole with
    | nil => exact absurd rfl hwhole.1
    | cons => rfl
  unfold readScientific
  simp only [htake, List.drop_left, htake', List.drop_length, hempty, Bool.false_and,
    Bool.false_eq_true, if_false, readExponent]
  exact ⟨_, rfl⟩

/-- A float token denotes a number. -/
theorem readFloat_ok (h : IsFraction text) : ∃ x, readFloat text = .ok x := by
  have hfirst : ∃ c rest, text = c :: rest ∧ c.isDigit = true := by
    obtain ⟨whole, fraction, rfl, hwhole, -⟩ := h
    cases whole with
    | nil => exact absurd rfl hwhole.1
    | cons c rest => exact ⟨c, _, rfl, hwhole.2 c List.mem_cons_self⟩
  obtain ⟨bits, hbits⟩ : ∃ bits, readMagnitude text = some bits := by
    obtain ⟨x, hx⟩ := readScientific_ok h
    unfold readMagnitude
    split
    · exact ⟨_, rfl⟩
    · exact ⟨_, rfl⟩
    · exact ⟨_, rfl⟩
    · exact ⟨_, by rw [hx]; rfl⟩
  obtain ⟨c, rest, rfl, hc⟩ := hfirst
  unfold readFloat
  split
  next sign text hsign =>
  split at hsign
  · next e =>
    cases e
    exact absurd hc (by decide)
  · next e =>
    cases e
    exact absurd hc (by decide)
  · cases hsign
    rw [hbits]
    exact ⟨_, rfl⟩

end Decimal

/-! ## Tokens -/

/-- Texts that tokens of the kind may have. -/
def Kind.Spells (kind : Kind) (text : List Char) : Prop :=
  match kind with
  | .int => Decimal.IsNatural text
  | .float => Decimal.IsFraction text
  | _ => True

/-- The text fits the kind. -/
def Token.Spelled (t : Token) : Prop :=
  t.kind.Spells t.lexeme.toList

/-- If the lexeme is a token, its text fits its kind. -/
def Lexeme.Spelled : Lexeme → Prop
  | token kind text => kind.Spells text.toList
  | _ => True

namespace Lexeme

theorem spelled_either (next : Char) {long short : Kind} (rest : List Char)
    (hlong : long.Spells long.name.toList) (hshort : short.Spells short.name.toList) :
    (either next long short rest).1.Spelled := by
  unfold either
  split
  · exact hlong
  · exact hshort

theorem spelled_required (c next : Char) {long : Kind} (rest : List Char)
    (hlong : long.Spells long.name.toList) : (required c next long rest).1.Spelled := by
  unfold required
  split
  · exact hlong
  · exact trivial

theorem spelled_ofStringBody (body : StringBody) : (ofStringBody body).Spelled := by
  unfold ofStringBody
  split <;> exact trivial

theorem isNatural_takeWhile {c : Char} (hc : c.isDigit = true) (rest : List Char) :
    Decimal.IsNatural (c :: rest.takeWhile Char.isDigit) := by
  refine ⟨nofun, fun d hd => ?_⟩
  rcases List.mem_cons.1 hd with rfl | hd
  · exact hc
  · exact List.all_eq_true.1 (List.all_takeWhile) d hd

theorem spelled_readNumber {c : Char} (hc : c.isDigit = true) (rest : List Char) :
    (readNumber c rest).1.Spelled := by
  have hwhole := isNatural_takeWhile hc rest
  unfold readNumber
  dsimp only
  split
  · next d after _ =>
    split
    · next hd =>
      show Decimal.IsFraction (String.ofList _).toList
      rw [String.toList_ofList]
      exact ⟨_, _, rfl, hwhole, isNatural_takeWhile hd after⟩
    · show Decimal.IsNatural (String.ofList _).toList
      rw [String.toList_ofList]
      exact hwhole
  · show Decimal.IsNatural (String.ofList _).toList
    rw [String.toList_ofList]
    exact hwhole

theorem spells_ofWord (word : String) (text : List Char) : (Kind.ofWord word).Spells text := by
  unfold Kind.ofWord
  cases hfind : Kind.keywords.find? (·.name = word) with
  | none => exact trivial
  | some kind =>
    have hkind := List.mem_of_find?_eq_some hfind
    simp only [Kind.keywords, List.mem_cons, List.not_mem_nil, or_false] at hkind
    rcases hkind with rfl | rfl | rfl | rfl | rfl | rfl | rfl | rfl | rfl | rfl | rfl <;>
      exact trivial

theorem spelled_read (c : Char) (rest : List Char) : (read c rest).1.Spelled := by
  unfold read
  split
  all_goals first
    | exact trivial
    | exact spelled_either _ _ trivial trivial
    | exact spelled_required _ _ _ trivial
    | exact spelled_ofStringBody _
    | skip
  split
  · next hdigit => exact spelled_readNumber hdigit rest
  · split
    · exact spells_ofWord _ _
    · exact trivial

end Lexeme

namespace Token

theorem spelled_of_lexemes (text : List Char) : ∀ (position : Position) (inside : Nat),
    ∀ l ∈ lexemes position inside text, l.lexeme.Spelled := by
  induction text with
  | nil =>
    intro position inside l hl
    cases inside <;> cases List.mem_singleton.1 hl <;> exact trivial
  | cons c rest ih =>
    intro position inside l hl
    cases inside with
    | succ inside => exact ih _ _ l hl
    | zero =>
      rw [lexemes] at hl
      split at hl
      · rcases List.mem_cons.1 hl with rfl | hl
        · exact trivial
        · exact ih _ _ l hl
      · next lexeme width hread =>
        rcases List.mem_cons.1 hl with rfl | hl
        · have hspelled := Lexeme.spelled_read c rest
          rw [hread] at hspelled
          exact hspelled
        · exact ih _ _ l hl

theorem spelled_of_layout (row : List PlacedLexeme) (h : ∀ l ∈ row, l.lexeme.Spelled) :
    ∀ (last : Option Kind), ∀ t ∈ layout last row, t.Spelled := by
  have hclosing : ∀ position last, ∀ t ∈ closing position last, t.Spelled := by
    intro position last t ht
    unfold closing at ht
    split at ht
    · cases List.mem_singleton.1 ht
      exact trivial
    · cases ht
  induction row with
  | nil => exact fun _ t ht => absurd ht List.not_mem_nil
  | cons l rest ih =>
    intro last t ht
    have hrest := ih fun l hl => h l (List.mem_cons_of_mem _ hl)
    obtain ⟨position, lexeme⟩ := l
    cases lexeme with
    | token kind text =>
      rcases List.mem_cons.1 ht with rfl | ht
      · exact h _ List.mem_cons_self
      · exact hrest _ t ht
    | newline => exact (List.mem_append.1 ht).elim (hclosing _ _ t) (hrest _ t)
    | finish =>
      rcases List.mem_append.1 ht with ht | ht
      · exact hclosing _ _ t ht
      · rcases List.mem_cons.1 ht with rfl | ht
        · exact trivial
        · exact hrest _ t ht
    | blank | faulty => exact hrest _ t ht

theorem spelled_of_scan {source : String} {tokens : List Token} (h : scan source = .ok tokens) :
    ∀ t ∈ tokens, t.Spelled := by
  unfold scan at h
  dsimp only at h
  split at h
  · cases h
    exact spelled_of_layout _ (spelled_of_lexemes _ _ _) none
  · cases h

end Token

end Scripting

import Scripting.Proofs.Acceptance
import Scripting.Proofs.SpelledTokens
import Scripting.Proofs.Warnings

/-!
# Proofs: printed integers as sources

An integer is printed as its decimal digits, with a minus in front if it is negative. As a source
the digits are a literal, and the minus is the operator that negates what follows. A literal is read
on its own, so its value must be below `2 ^ 63` whatever stands in front of it. Negating gives every
negative integer but the least, whose digits denote a number that is too large by one.
-/

namespace Scripting

/-! ## Digits -/

namespace Decimal

theorem isNatural_toDigits (n : Nat) : IsNatural (Nat.toDigits 10 n) :=
  ⟨Nat.toDigits_ne_nil, fun _ hc => Nat.isDigit_of_mem_toDigits (by decide) (by decide) hc⟩

theorem digitsValue_toDigits (n : Nat) : digitsValue (Nat.toDigits 10 n) = n :=
  Nat.ofDigitChars_ten_toDigits

/-- The digits of a number are read as that number, if it has room. -/
theorem readInt64_toDigits (n : Nat) : readInt64 (Nat.toDigits 10 n) =
    if n < Nat.pow 2 63 then .ok (Int64.ofNat n) else .error .tooLarge := by
  have hnatural := isNatural_toDigits n
  have hvalue : digitsAfter 0 (Nat.toDigits 10 n) = n := digitsValue_toDigits n
  unfold readInt64
  rw [readInteger_eq hnatural, readDigits_eq (Nat.zero_le _) hnatural.2, hvalue]
  have hlimit : n ≤ Nat.pow 2 63 - 1 ↔ n < Nat.pow 2 63 := Nat.le_sub_one_iff_lt (by decide)
  by_cases hn : n < Nat.pow 2 63
  · rw [if_pos hn, if_pos (hlimit.2 hn)]
    exact congrArg Except.ok Int64.ofInt_eq_ofNat
  · rw [if_neg hn, if_neg (mt hlimit.1 hn)]
    rfl

end Decimal

theorem Value.text_of_nonneg {n : Int64} (h : 0 ≤ n.toInt) :
    (Value.int n).text = String.ofList (Nat.toDigits 10 n.toInt.toNat) := by
  show toString n.toInt = _
  rw [Int.toString_eq_repr, Int.repr_eq_if, if_pos h]
  rfl

theorem Value.text_of_neg {n : Int64} (h : n.toInt < 0) :
    (Value.int n).text = String.ofList ('-' :: Nat.toDigits 10 (-n.toInt).toNat) := by
  show toString n.toInt = _
  rw [Int.toString_eq_repr, Int.repr_eq_if, if_neg (Int.not_le.2 h)]
  exact String.toList_inj.1 (by simp)

/-! ## Sources of one literal -/

namespace Token

/-- The lexemes of digits that nothing follows. -/
theorem lexemes_digits {digits : List Char} (h : Decimal.IsNatural digits) (position : Position) :
    ∃ place, lexemes position 0 digits =
      [⟨position, .token .int (String.ofList digits)⟩, ⟨place, .finish⟩] := by
  obtain ⟨c, rest, rfl⟩ := List.exists_cons_of_ne_nil h.1
  obtain ⟨place, hrest⟩ := lexemes_skip rest [] position.right
  have hend : Lexeme.Parted [] := nofun
  have hread := Lexeme.read_int h.2 hend
  rw [List.append_nil] at hread hrest
  refine ⟨place, ?_⟩
  rw [lexemes_cons, hread]
  exact congrArg (_ :: ·) hrest

theorem scan_digits {digits : List Char} (h : Decimal.IsNatural digits) :
    ∃ place, scan (String.ofList digits) =
      .ok [⟨.int, String.ofList digits, ⟨1, 1⟩⟩, ⟨.semicolon, ";", place⟩,
        ⟨.finish, "", place⟩] := by
  obtain ⟨place, hrow⟩ := lexemes_digits h .start
  refine ⟨place, ?_⟩
  unfold scan
  rw [String.toList_ofList, hrow]
  rfl

theorem scan_minus_digits {digits : List Char} (h : Decimal.IsNatural digits) :
    ∃ place, scan (String.ofList ('-' :: digits)) =
      .ok [⟨.minus, "-", ⟨1, 1⟩⟩, ⟨.int, String.ofList digits, ⟨1, 2⟩⟩, ⟨.semicolon, ";", place⟩,
        ⟨.finish, "", place⟩] := by
  obtain ⟨place, hrow⟩ := lexemes_digits h ⟨1, 2⟩
  have hminus : lexemes .start 0 ('-' :: digits) =
      ⟨.start, Lexeme.symbol .minus⟩ :: lexemes ⟨1, 2⟩ 0 digits := lexemes_cons _ _ _
  refine ⟨place, ?_⟩
  unfold scan
  rw [String.toList_ofList, hminus, hrow]
  rfl

end Token

/-- The code of a block of one statement is that of the statement. -/
theorem Node.compile_singleton {analysis? : Path → Option Analysis} {inLoop : Bool} {path : Path}
    {literal : String} {position : Position} {statement : Node} :
    compile analysis? inLoop path ⟨.statements, literal, position, [statement]⟩ =
      compile analysis? inLoop (0 :: path) statement := by
  rw [compile_statements, compileAll]
  cases compile analysis? inLoop (0 :: path) statement with
  | error e => rfl
  | ok code => rfl

namespace Session

theorem parses_digits {digits : List Char} (h : Decimal.IsNatural digits) :
    Parses (String.ofList digits)
      ⟨.statements, "stmts", ⟨1, 1⟩, [⟨.int, String.ofList digits, ⟨1, 1⟩, []⟩]⟩ := by
  obtain ⟨place, hscan⟩ := Token.scan_digits h
  exact ⟨_, hscan, rfl⟩

theorem parses_minus_digits {digits : List Char} (h : Decimal.IsNatural digits) :
    Parses (String.ofList ('-' :: digits)) ⟨.statements, "stmts", ⟨1, 1⟩,
      [⟨.minus, "-", ⟨1, 1⟩, [⟨.int, String.ofList digits, ⟨1, 2⟩, []⟩]⟩]⟩ := by
  obtain ⟨place, hscan⟩ := Token.scan_minus_digits h
  exact ⟨_, hscan, rfl⟩

theorem translated_digits {digits : List Char} (h : Decimal.IsNatural digits) :
    translated (String.ofList digits) =
      (Node.number .int (String.ofList digits) ⟨1, 1⟩).mapError fun e => .error (.compile e) := by
  rw [translated_of_parses (parses_digits h) rfl, Program.compile, Node.compile_singleton,
    Node.compile_int]

theorem translated_minus_digits {digits : List Char} (h : Decimal.IsNatural digits) :
    translated (String.ofList ('-' :: digits)) =
      (do return Code.unary .negate (← Node.number .int (String.ofList digits) ⟨1, 2⟩) ⟨1, 1⟩ :
        Except CompileError Code).mapError fun e => .error (.compile e) := by
  rw [translated_of_parses (parses_minus_digits h) rfl, Program.compile, Node.compile_singleton,
    Node.compile_negate, Node.compile_int]

/-- The code that a source denotes is evaluated in the session as it was. -/
theorem run_of_translated {source : String} {code : Code} (h : translated source = .ok code)
    {fuel : Nat} {display : Display} {a : Session} {values : List Value}
    (hcode : ∀ state, code.run fuel .global state = .ok values state)
    (hvalues : Eval.returned values = values) :
    ∃ b, Untouched display a b ∧ run fuel display source a = .ok values b := by
  obtain ⟨b, hab, hb⟩ := computes_prepare display source a
  rw [h] at hb
  have hevaluating : evaluating (code.run fuel .global) b = .ok values b := by
    unfold evaluating
    rw [hcode]
  refine ⟨b, hab, ?_⟩
  rw [run_eq, bind_ok hb, bind_ok hevaluating, hvalues]
  rfl

/-- A source that denotes no code stops the run. -/
theorem run_of_refused {source : String} {e : Stop Error} (h : translated source = .error e)
    (fuel : Nat) (display : Display) (a : Session) :
    ∃ b, Untouched display a b ∧ run fuel display source a = .error e b := by
  obtain ⟨b, hab, hb⟩ := computes_prepare display source a
  rw [h] at hb
  exact ⟨b, hab, by rw [run_eq, bind_error hb]⟩

end Session

/-! ## Reading back -/

namespace Node

theorem number_toDigits (n : Nat) (position : Position) :
    number .int (String.ofList (Nat.toDigits 10 n)) position =
      if n < Nat.pow 2 63 then .ok (.literal (.int (Int64.ofNat n)))
      else .error ⟨.invalidLiteral .int (String.ofList (Nat.toDigits 10 n)) (.integer .tooLarge),
        position⟩ := by
  have hread := Decimal.readInt64_toDigits n
  unfold number
  simp only [String.toList_ofList]
  by_cases hn : n < Nat.pow 2 63
  · rw [if_pos hn] at hread ⊢
    rw [hread]
  · rw [if_neg hn] at hread ⊢
    rw [hread]

end Node

namespace Session

/-- The literal that is printed for the least integer, without its sign. -/
theorem translated_least : translated (Value.int Int64.minValue).text =
    .error (.error (.compile
      ⟨.invalidLiteral .int "9223372036854775808" (.integer .tooLarge), ⟨1, 2⟩⟩)) := by
  have hneg : Int64.minValue.toInt < 0 := by decide
  have hmagnitude : (-Int64.minValue.toInt).toNat = Nat.pow 2 63 := by decide
  have hdigits : String.ofList (Nat.toDigits 10 (Nat.pow 2 63)) = "9223372036854775808" := by decide
  rw [Value.text_of_neg hneg, translated_minus_digits (Decimal.isNatural_toDigits _), hmagnitude,
    Node.number_toDigits, if_neg (Nat.lt_irrefl _), hdigits]
  rfl

/-- The text of an integer uses no names, so nothing is warned about. -/
theorem warnings_of_text (n : Int64) (fuel : Nat) (display : Display) (a : Session) :
    (ending (run fuel display (Value.int n).text a)).warnings = a.warnings := by
  obtain ⟨root, p, hparses, hp, hnone⟩ : ∃ root p, Parses (Value.int n).text root ∧
      Program.ofNode root = .ok p ∧ p.warnings a.globalNames = [] := by
    by_cases hsign : 0 ≤ n.toInt
    · rw [Value.text_of_nonneg hsign]
      exact ⟨_, _, parses_digits (Decimal.isNatural_toDigits _), rfl, rfl⟩
    · rw [Value.text_of_neg (Int.not_le.1 hsign)]
      exact ⟨_, _, parses_minus_digits (Decimal.isNatural_toDigits _), rfl, rfl⟩
  rw [warnings_of_run hparses hp, hnone, List.append_nil]

/-- The text of another integer is a literal or a negated literal that yields the integer. -/
theorem translated_text {n : Int64} (h : n ≠ Int64.minValue) :
    ∃ code, translated (Value.int n).text = .ok code ∧
      ∀ fuel state, code.run (fuel + 1) .global state = .ok [.int n] state := by
  have hlow := n.le_toInt
  have hhigh := n.toInt_lt
  have hne : n.toInt ≠ Int64.minValue.toInt := fun heq => h (Int64.toInt_inj.1 heq)
  have hleast : Int64.minValue.toInt = -2 ^ 63 := rfl
  have hlimit : Nat.pow 2 63 = 9223372036854775808 := rfl
  by_cases hsign : 0 ≤ n.toInt
  · have hroom : n.toInt.toNat < Nat.pow 2 63 := by omega
    have hvalue : Int64.ofNat n.toInt.toNat = n := by
      rw [← Int64.ofInt_eq_ofNat, Int.toNat_of_nonneg hsign, Int64.ofInt_toInt]
    refine ⟨.literal (.int n), ?_, fun _ _ => rfl⟩
    rw [Value.text_of_nonneg hsign, translated_digits (Decimal.isNatural_toDigits _),
      Node.number_toDigits, if_pos hroom, hvalue]
    rfl
  · have hroom : (-n.toInt).toNat < Nat.pow 2 63 := by omega
    have hvalue : -Int64.ofNat (-n.toInt).toNat = n := by
      rw [← Int64.ofInt_eq_ofNat, Int.toNat_of_nonneg (by omega), Int64.ofInt_neg,
        Int64.ofInt_toInt, Int64.neg_neg]
    refine ⟨.unary .negate (.literal (.int (Int64.ofNat (-n.toInt).toNat))) ⟨1, 1⟩, ?_, ?_⟩
    · rw [Value.text_of_neg (Int.not_le.1 hsign),
        translated_minus_digits (Decimal.isNatural_toDigits _), Node.number_toDigits, if_pos hroom]
      rfl
    · intro fuel state
      have hrun : Code.run (fuel + 1) (.unary .negate
          (.literal (.int (Int64.ofNat (-n.toInt).toNat))) ⟨1, 1⟩) .global state =
            .ok [.int (-Int64.ofNat (-n.toInt).toNat)] state := rfl
      rw [hrun, hvalue]

end Session

/-- A new session does not read the least integer back from its text. -/
theorem least_not_read_back :
    ¬ ∃ fuel b, Session.run fuel .plain (Value.int Int64.minValue).text (.start 0) =
      .ok [.int Int64.minValue] b := by
  rintro ⟨fuel, b, hrun⟩
  obtain ⟨c, -, hrefused⟩ :=
    Session.run_of_refused Session.translated_least fuel .plain (.start 0)
  cases hrun.symm.trans hrefused

/-- Running the text of an integer yields that integer and leaves the session as it was, its
warnings too, in every session. The least integer alone is refused: the digits behind the minus are
read as a literal of their own, and that literal is too large by one. -/
theorem printed_integers_read_back (n : Int64) (fuel : Nat) (display : Display) (a : Session) :
    ∃ b, Session.Untouched display a b ∧ b.warnings = a.warnings ∧
      Session.run (fuel + 1) display (Value.int n).text a =
        if n = Int64.minValue then
          .error (.error (.compile
            ⟨.invalidLiteral .int "9223372036854775808" (.integer .tooLarge), ⟨1, 2⟩⟩)) b
        else .ok [.int n] b := by
  have hwarnings := Session.warnings_of_text n (fuel + 1) display a
  by_cases hleast : n = Int64.minValue
  · subst hleast
    obtain ⟨b, hab, hb⟩ :=
      Session.run_of_refused Session.translated_least (fuel + 1) display a
    rw [hb] at hwarnings
    exact ⟨b, hab, hwarnings, hb.trans (if_pos rfl).symm⟩
  · obtain ⟨code, hcode, hvalue⟩ := Session.translated_text hleast
    obtain ⟨b, hab, hb⟩ := Session.run_of_translated hcode (hvalue fuel) rfl
    rw [hb] at hwarnings
    exact ⟨b, hab, hwarnings, hb.trans (if_neg hleast).symm⟩

end Scripting

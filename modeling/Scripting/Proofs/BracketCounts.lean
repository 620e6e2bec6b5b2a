import Scripting.Proofs.Conversations
import Scripting.Proofs.JoinedTokens

/-!
# Proofs: what the prompt counts

The prompt keeps a line that opens more brackets and braces than it closes, and counts characters.
The scanner knows which of them are tokens: those in strings and comments are not. So the count of
the prompt is that of the tokens and that of the characters in strings and comments together, and
the prompt takes a line for unfinished, or for finished, just as this sum says.
-/

namespace Scripting

/-! ## Two counts -/

namespace Text

/-- How many more brackets and braces a character opens than closes. -/
def depthOf (c : Char) : Int :=
  if c = '(' ∨ c = '{' then 1 else if c = ')' ∨ c = '}' then -1 else 0

/-- How many more brackets and braces a text opens than closes. -/
def depth : List Char → Int
  | [] => 0
  | c :: rest => depthOf c + depth rest

@[simp] theorem depth_nil : depth [] = 0 := rfl

@[simp] theorem depth_cons (c : Char) (rest : List Char) :
    depth (c :: rest) = depthOf c + depth rest := rfl

theorem depth_append (text more : List Char) : depth (text ++ more) = depth text + depth more := by
  induction text with
  | nil => exact (Int.zero_add _).symm
  | cons c rest ih => rw [List.cons_append, depth_cons, depth_cons, ih, Int.add_assoc]

/-- The predicate holds of no bracket and no brace. -/
def Plain (p : Char → Bool) : Prop :=
  p '(' = false ∧ p ')' = false ∧ p '{' = false ∧ p '}' = false

theorem Plain.depthOf {p : Char → Bool} (hp : Plain p) {c : Char} (hc : p c = true) :
    depthOf c = 0 := by
  obtain ⟨h₁, h₂, h₃, h₄⟩ := hp
  have hne : c ≠ '(' ∧ c ≠ ')' ∧ c ≠ '{' ∧ c ≠ '}' := by
    refine ⟨?_, ?_, ?_, ?_⟩ <;> rintro rfl <;> simp_all
  simp [Text.depthOf, hne]

theorem Plain.depth_takeWhile {p : Char → Bool} (hp : Plain p) (text : List Char) :
    depth (text.takeWhile p) = 0 := by
  induction text with
  | nil => rfl
  | cons c rest ih =>
    rw [List.takeWhile_cons]
    split
    · next hc => rw [depth_cons, hp.depthOf hc, ih, Int.add_zero]
    · rfl

end Text

namespace Kind

/-- Is it an opening bracket or brace? -/
def opens : Kind → Bool
  | leftParen | leftBrace => true
  | _ => false

/-- Is it a closing bracket or brace? -/
def closes : Kind → Bool
  | rightParen | rightBrace => true
  | _ => false

/-- How many more brackets and braces a token of the kind opens than closes. -/
def depth (kind : Kind) : Int :=
  if kind.opens then 1 else if kind.closes then -1 else 0

end Kind

namespace Token

/-- The number of opening brackets and braces in a row of tokens. -/
def openings (tokens : List Token) : Nat :=
  tokens.countP (·.kind.opens)

/-- The number of closing brackets and braces in a row of tokens. -/
def closings (tokens : List Token) : Nat :=
  tokens.countP (·.kind.closes)

/-- How many more brackets and braces a row of tokens opens than closes. -/
def depth : List Token → Int
  | [] => 0
  | t :: rest => t.kind.depth + depth rest

theorem depth_append (tokens more : List Token) :
    depth (tokens ++ more) = depth tokens + depth more := by
  induction tokens with
  | nil => exact (Int.zero_add _).symm
  | cons t rest ih => rw [List.cons_append, depth, depth, ih, Int.add_assoc]

theorem depth_eq (tokens : List Token) : depth tokens = openings tokens - closings tokens := by
  induction tokens with
  | nil => rfl
  | cons t rest ih =>
    rw [depth, ih, openings, openings, closings, closings, List.countP_cons, List.countP_cons,
      Kind.depth]
    obtain ⟨kind, lexeme, position⟩ := t
    cases kind <;> simp [Kind.opens, Kind.closes] <;> omega

end Token

/-! ## The count of a lexeme -/

namespace Lexeme

open Text

/-- How many more brackets and braces a lexeme opens than closes as a token. -/
def depth : Lexeme → Int
  | token kind _ => kind.depth
  | _ => 0

/-- How many more brackets and braces a row of lexemes opens than closes as tokens. -/
def rowDepth : List PlacedLexeme → Int
  | [] => 0
  | l :: row => l.lexeme.depth + rowDepth row

variable {c : Char} {rest : List Char}

theorem plain_isDigit : Plain Char.isDigit := by
  unfold Plain
  decide

theorem plain_continuesName : Plain continuesName := by
  unfold Plain
  decide

theorem depth_take_takeWhile {p : Char → Bool} (hp : Plain p) (rest : List Char) :
    Text.depth (rest.take (rest.takeWhile p).length) = 0 := by
  rw [← List.prefix_iff_eq_take.1 (List.takeWhile_prefix p), hp.depth_takeWhile]

/-- A number has no brackets. -/
theorem depth_readNumber (c : Char) (rest : List Char) :
    Text.depth (rest.take (readNumber c rest).2) = 0 ∧ (readNumber c rest).1.depth = 0 := by
  have hwhole := depth_take_takeWhile plain_isDigit rest
  rw [readNumber_eq]
  split
  · next d after hdrop =>
    split
    · next hd =>
      refine ⟨?_, rfl⟩
      rw [Nat.add_assoc, List.take_add, hdrop, Nat.add_comm 1, List.take_succ_cons,
        List.length_cons, List.take_succ_cons, Text.depth_append, hwhole, depth_cons, depth_cons,
        plain_isDigit.depthOf hd, depth_take_takeWhile plain_isDigit]
      rfl
    · exact ⟨hwhole, rfl⟩
  · exact ⟨hwhole, rfl⟩

theorem depth_ofWord (word : String) : (Kind.ofWord word).depth = 0 := by
  unfold Kind.ofWord
  cases hfind : Kind.keywords.find? (·.name = word) with
  | none => rfl
  | some kind =>
    have hall : ∀ kind ∈ Kind.keywords, kind.depth = 0 := by decide
    exact hall kind (List.mem_of_find?_eq_some hfind)

theorem depth_either {next : Char} {long short : Kind} (hnext : depthOf next = 0)
    (hlong : long.depth = 0) (hshort : short.depth = 0) :
    Text.depth (rest.take (either next long short rest).2) = 0 ∧
      (either next long short rest).1.depth = 0 := by
  unfold either
  split
  · next h =>
    obtain ⟨more, rfl⟩ := List.head?_eq_some_iff.1 h
    exact ⟨by simp [hnext], hlong⟩
  · exact ⟨rfl, hshort⟩

theorem depth_required {next : Char} {long : Kind} (hnext : depthOf next = 0)
    (hlong : long.depth = 0) :
    Text.depth (rest.take (required c next long rest).2) = 0 ∧
      (required c next long rest).1.depth = 0 := by
  unfold required
  split
  · next h =>
    obtain ⟨more, rfl⟩ := List.head?_eq_some_iff.1 h
    exact ⟨by simp [hnext], hlong⟩
  · exact ⟨rfl, rfl⟩

theorem depth_ofStringBody (body : StringBody) : (ofStringBody body).depth = 0 := by
  unfold ofStringBody
  split <;> rfl

/-- What is neither string nor comment counts as a token for what its characters count. -/
theorem depth_read (hc : ¬(c = '"' ∨ c = '#')) (rest : List Char) :
    (read c rest).1.depth = depthOf c + Text.depth (rest.take (read c rest).2) := by
  have hbracket : c = '(' ∨ c = '{' ∨ c = ')' ∨ c = '}' ∨ depthOf c = 0 := by
    unfold depthOf
    grind
  rcases hbracket with rfl | rfl | rfl | rfl | hfirst
  · rfl
  · rfl
  · rfl
  · rfl
  -- The lexeme counts for nothing, and so do all of its characters.
  · have hnone : ∀ {reader : Lexeme × Nat},
        Text.depth (rest.take reader.2) = 0 ∧ reader.1.depth = 0 →
          reader.1.depth = 0 + Text.depth (rest.take reader.2) := by
      rintro reader ⟨hmore, hdepth⟩
      rw [hmore, hdepth]
      rfl
    rw [hfirst]
    unfold read
    split
    all_goals first
      | rfl
      | exact absurd hfirst (by decide)
      | exact hnone (depth_either (by decide) (by decide) (by decide))
      | exact hnone (depth_required (by decide) (by decide))
      | exact absurd (by decide) hc
      | skip
    split
    · exact hnone (depth_readNumber c rest)
    · split
      · exact hnone ⟨depth_take_takeWhile plain_continuesName rest, depth_ofWord _⟩
      · rfl

/-- A string or a comment counts for nothing as a token. -/
theorem depth_read_hidden (hc : c = '"' ∨ c = '#') (rest : List Char) :
    (read c rest).1.depth = 0 := by
  rcases hc with rfl | rfl
  · exact depth_ofStringBody _
  · rfl

end Lexeme

namespace Token

/-! ## The count of a text -/

/-- The characters of a text that stand in strings and comments. The first `inside` characters
belong to the lexeme before, which is `hidden` if it is one of those. -/
def hiddenText : (hidden : Bool) → (inside : Nat) → List Char → List Char
  | _, _, [] => []
  | hidden, inside + 1, c :: rest =>
    if hidden then c :: hiddenText hidden inside rest else hiddenText hidden inside rest
  | _, 0, c :: rest =>
    if c = '"' ∨ c = '#' then c :: hiddenText true (Lexeme.read c rest).2 rest
    else hiddenText false (Lexeme.read c rest).2 rest

/-- How many more brackets and braces the strings and comments of a source open than close. -/
def hiddenDepth (source : String) : Int :=
  Text.depth (hiddenText false 0 source.toList)

/-- The lexemes of a text open and close what its characters do outside of strings and comments.
What is left of the lexeme before is counted in neither. -/
theorem depth_lexemes (text : List Char) : ∀ (position : Position) (hidden : Bool) (inside : Nat),
    Text.depth text = (if hidden then 0 else Text.depth (text.take inside)) +
      Lexeme.rowDepth (lexemes position inside text) +
      Text.depth (hiddenText hidden inside text) := by
  induction text with
  | nil => exact fun _ hidden inside => by cases hidden <;> cases inside <;> rfl
  | cons c rest ih =>
    intro position hidden inside
    cases inside with
    | succ inside =>
      have hrest := ih position.right hidden inside
      cases hidden with
      | true =>
        rw [if_pos rfl] at hrest ⊢
        rw [hiddenText, if_pos rfl, Text.depth_cons, Text.depth_cons, lexemes, hrest]
        omega
      | false =>
        rw [if_neg Bool.false_ne_true] at hrest ⊢
        rw [hiddenText, if_neg Bool.false_ne_true, List.take_succ_cons, Text.depth_cons,
          Text.depth_cons, lexemes, hrest]
        omega
    | zero =>
      have hnothing : (if hidden then 0 else Text.depth ((c :: rest).take 0)) = 0 := by
        cases hidden <;> rfl
      have hrest := ih (placeAfter position (Lexeme.read c rest).1)
      rw [hnothing, lexemes_cons, Lexeme.rowDepth, Text.depth_cons, hiddenText]
      dsimp only
      by_cases hc : c = '"' ∨ c = '#'
      · rw [if_pos hc, Lexeme.depth_read_hidden hc, Text.depth_cons,
          hrest true (Lexeme.read c rest).2, if_pos rfl]
        omega
      · rw [if_neg hc, Lexeme.depth_read hc, hrest false (Lexeme.read c rest).2,
          if_neg Bool.false_ne_true]
        omega

theorem depth_closing (position : Position) (last : Option Kind) :
    depth (closing position last) = 0 := by
  unfold closing
  split <;> rfl

/-- The tokens that the scanner adds open and close nothing. -/
theorem depth_layout (row : List PlacedLexeme) : ∀ last : Option Kind,
    depth (layout last row) = Lexeme.rowDepth row := by
  induction row with
  | nil => exact fun _ => rfl
  | cons l row ih =>
    intro last
    obtain ⟨position, lexeme⟩ := l
    rw [Lexeme.rowDepth]
    cases lexeme with
    | token kind text =>
      exact congrArg (kind.depth + ·) (ih (some kind))
    | newline =>
      rw [layout, depth_append, depth_closing, ih none]
      rfl
    | finish =>
      have hend : depth (⟨.finish, "", position⟩ :: layout none row) =
          0 + depth (layout none row) := rfl
      rw [layout, depth_append, depth_closing, hend, ih none, Int.zero_add]
      rfl
    | blank | faulty =>
      rw [layout, ih last]
      exact (Int.zero_add _).symm

/-- The characters of a source count as its tokens and its strings and comments do together. -/
theorem depth_of_scan {source : String} {tokens : List Token} (h : scan source = .ok tokens) :
    Text.depth source.toList = depth tokens + hiddenDepth source := by
  obtain ⟨-, rfl⟩ := scan_ok_iff.1 h
  rw [depth_layout, depth_lexemes source.toList .start false 0, if_neg Bool.false_ne_true]
  exact congrArg (· + hiddenDepth source) (Int.zero_add _)

end Token

/-! ## Lines at the prompt -/

namespace Pending

/-- The line is run at once, and nothing is pending behind it. -/
def RunsAtOnce (line : String) : Prop :=
  none.add line = (none, some (line ++ "\n"))

/-- The line is not run but pending, and the prompt asks for more. -/
def Withheld (line : String) : Prop :=
  ∃ p, none.add line = (p, .none) ∧ p.input = line ++ "\n" ∧ p.prompt = "... "

theorem bracketDepth_eq (line : String) : bracketDepth line = Text.depth line.toList := by
  have hfold : ∀ (text : List Char) (before : Int), text.foldl (fun depth c =>
      if c = '(' || c = '{' then depth + 1
      else if c = ')' || c = '}' then depth - 1
      else depth) before = before + Text.depth text := by
    intro text
    induction text with
    | nil => exact fun before => (Int.add_zero before).symm
    | cons c rest ih =>
      intro before
      rw [List.foldl_cons, ih, Text.depth_cons, Text.depthOf]
      simp only [Bool.or_eq_true, decide_eq_true_eq]
      split
      · omega
      · split <;> omega
  exact (hfold line.toList 0).trans (Int.zero_add _)

/-- A line that does not ask to be run is run at once or withheld, by the count of its
characters. -/
theorem add_none {line : String} (hline : forces line = false) :
    none.add line = if 0 < Text.depth line.toList then
      (⟨line ++ "\n", Text.depth line.toList⟩, .none) else (none, some (line ++ "\n")) := by
  have hempty : none.input ++ line ++ "\n" = line ++ "\n" := by
    rw [none, String.empty_append]
  have hzero : none.depth + bracketDepth line = Text.depth line.toList := by
    rw [bracketDepth_eq]
    exact Int.zero_add _
  rw [add, hline, if_neg Bool.false_ne_true]
  dsimp only
  rw [hempty, hzero]

theorem runsAtOnce_iff {line : String} (hline : forces line = false) :
    RunsAtOnce line ↔ Text.depth line.toList ≤ 0 := by
  rw [RunsAtOnce, add_none hline]
  split
  · refine iff_of_false (fun h => ?_) (by omega)
    cases congrArg Prod.snd h
  · exact iff_of_true rfl (by omega)

theorem withheld_iff {line : String} (hline : forces line = false) :
    Withheld line ↔ 0 < Text.depth line.toList := by
  rw [Withheld, add_none hline]
  split
  · next hdepth =>
    refine iff_of_true ⟨_, rfl, rfl, ?_⟩ hdepth
    have hinput : (line ++ "\n").isEmpty = false := by
      rw [← Bool.not_eq_true, String.isEmpty_iff]
      simp [String.append_eq_empty_iff]
    rw [prompt, hinput]
    rfl
  · next hdepth =>
    refine iff_of_false ?_ hdepth
    rintro ⟨p, h, -⟩
    cases congrArg Prod.snd h

end Pending

namespace Console

open Pending

variable {fuel : Nat} {display : Display} {line : String} {rest : List String}

theorem converse_runsAtOnce (h : RunsAtOnce line) :
    converse fuel display none (line :: rest) = (do
      ask none
      runSource fuel display (line ++ "\n")
      converse fuel display none rest) := by
  rw [converse, submit, h]
  simp only [bind_assoc, pure_bind, attempt_runScript]

theorem converse_withheld {p : Pending} (h : none.add line = (p, .none)) :
    converse fuel display none (line :: rest) = (do
      ask none
      converse fuel display p rest) := by
  rw [converse, submit, h]
  simp only [pure_bind]

/-- A line without faults, typed when nothing is pending, is run at once exactly if its tokens, its
strings and its comments together close as many brackets and braces as they open, and is withheld
otherwise. So the tokens alone decide exactly for those lines whose strings and comments do not tip
the balance. A line that is run is followed by a fresh prompt, and a line that is withheld is
pending when the next one is asked for. -/
theorem line_run_iff {line : String} {tokens : List Token} (hline : forces line = false)
    (hscan : Token.scan line = .ok tokens) :
    (RunsAtOnce line ↔
      Token.openings tokens + Token.hiddenDepth line ≤ (Token.closings tokens : Int)) ∧
    (Withheld line ↔
      (Token.closings tokens : Int) < Token.openings tokens + Token.hiddenDepth line) ∧
    (((Token.openings tokens ≤ Token.closings tokens → RunsAtOnce line) ∧
        (Token.closings tokens < Token.openings tokens → Withheld line)) ↔
      (Token.openings tokens ≤ Token.closings tokens ↔
        Token.openings tokens + Token.hiddenDepth line ≤ (Token.closings tokens : Int))) ∧
    ∀ fuel display rest,
      (RunsAtOnce line → converse fuel display none (line :: rest) = (do
        ask none
        runSource fuel display (line ++ "\n")
        converse fuel display none rest)) ∧
      (Withheld line → ∃ p, p.input = line ++ "\n" ∧ p.prompt = "... " ∧
        converse fuel display none (line :: rest) = (do
          ask none
          converse fuel display p rest)) := by
  have hdepth := Token.depth_of_scan hscan
  rw [Token.depth_eq] at hdepth
  have hruns : RunsAtOnce line ↔
      Token.openings tokens + Token.hiddenDepth line ≤ (Token.closings tokens : Int) := by
    rw [runsAtOnce_iff hline, hdepth]
    omega
  have hwithheld : Withheld line ↔
      (Token.closings tokens : Int) < Token.openings tokens + Token.hiddenDepth line := by
    rw [withheld_iff hline, hdepth]
    omega
  refine ⟨hruns, hwithheld, ?_, fun fuel display rest => ⟨converse_runsAtOnce, ?_⟩⟩
  · rw [hruns, hwithheld]
    omega
  · rintro ⟨p, hadd, hinput, hprompt⟩
    exact ⟨p, hinput, hprompt, converse_withheld hadd⟩

/-- A bracket in a string is no token, but the line waits for another that closes it. A comment may
tip the balance back. -/
theorem line_run_iff_comment : ∃ tokens, forces "f(\"(\") # )" = false ∧
    Token.scan "f(\"(\") # )" = .ok tokens ∧ Token.hiddenDepth "f(\"(\") # )" = 0 ∧
    RunsAtOnce "f(\"(\") # )" := by
  have hscan : Token.scan "f(\"(\") # )" = .ok [⟨.identifier, "f", ⟨1, 1⟩⟩,
      ⟨.leftParen, "(", ⟨1, 2⟩⟩, ⟨.string, "(", ⟨1, 3⟩⟩, ⟨.rightParen, ")", ⟨1, 6⟩⟩,
      ⟨.semicolon, ";", ⟨1, 11⟩⟩, ⟨.finish, "", ⟨1, 11⟩⟩] := rfl
  exact ⟨_, by decide, hscan, by decide, (line_run_iff (by decide) hscan).1.2 (by decide)⟩

/-- The line is a single string, with no bracket among its tokens, and is withheld. -/
theorem line_withheld_complete : ∃ tokens, forces "\"(\"" = false ∧
    Token.scan "\"(\"" = .ok tokens ∧ Token.openings tokens = 0 ∧ Token.closings tokens = 0 ∧
    none.add "\"(\"" = (⟨"\"(\"\n", 1⟩, .none) ∧ ¬ RunsAtOnce "\"(\"" :=
  ⟨[⟨.string, "(", ⟨1, 1⟩⟩, ⟨.semicolon, ";", ⟨1, 4⟩⟩, ⟨.finish, "", ⟨1, 4⟩⟩], by decide, rfl, rfl,
    rfl, by decide, by unfold RunsAtOnce; decide⟩

end Console

end Scripting

import Mathlib.Data.List.TakeWhile
import Scripting.Proofs.JoinedTokens
import Scripting.Proofs.Spelling

/-!
# Proofs: tokens written on a line

Tokens that are written one after the other are read as they are, whatever blanks stand between
them and whatever comment stands behind them. The text of a string token is written with escapes, so
that it never breaks the line; all other tokens are written as their texts. Each token is read alone
because no separator goes on with a token.
-/

namespace Scripting

namespace Lexeme

/-! ## Strings -/

/-- The way a character is written in a string: by its escape if it has one. -/
def escape (c : Char) : List Char :=
  match c with
  | '\n' => ['\\', 'n']
  | '\t' => ['\\', 't']
  | '\r' => ['\\', 'r']
  | '\x00' => ['\\', '0']
  | '"' => ['\\', '"']
  | '\\' => ['\\', '\\']
  | c => [c]

/-- What is written for a character is read as that character. -/
theorem readString_escape (c : Char) (rest : List Char) : readString (escape c ++ rest) =
    ⟨c :: (readString rest).text, (readString rest).faults,
      (readString rest).width + (escape c).length⟩ := by
  unfold escape
  split
  case h_7 hline _ _ _ hquote hslash =>
    exact readString_cons (fun h => hline h) (fun h => hquote h) (fun h => hslash h) rest
  all_goals rfl

theorem readString_escapes (text more : List Char) :
    readString (text.flatMap escape ++ '"' :: more) =
      ⟨text, [], (text.flatMap escape).length + 1⟩ := by
  induction text with
  | nil => rfl
  | cons c text ih =>
    rw [List.flatMap_cons, List.append_assoc, readString_escape, ih, List.length_append]
    simp only [StringBody.mk.injEq, true_and]
    omega

/-! ## Words and numbers -/

/-- A text that the scanner takes for a name or a keyword. -/
def IsWord (text : List Char) : Prop :=
  ∃ c rest, text = c :: rest ∧ startsName c = true ∧ ∀ d ∈ rest, continuesName d = true

/-- The characters that may stand right behind a token of any kind. -/
def separators : List Char :=
  [' ', '\t', '\r', '#']

/-- The text goes on with a separator or not at all. -/
def Parted (more : List Char) : Prop :=
  ∀ c ∈ more.head?, c ∈ separators

variable {c : Char} {rest more : List Char}

theorem Parted.cases (h : Parted more) : more = [] ∨ ∃ d after, more = d :: after ∧
    (d = ' ' ∨ d = '\t' ∨ d = '\r' ∨ d = '#') := by
  cases more with
  | nil => exact .inl rfl
  | cons d after =>
    have hd : d ∈ separators := h d rfl
    exact .inr ⟨d, after, rfl, by simpa [separators] using hd⟩

theorem takeWhile_parted {p : Char → Bool} (hp : separators.any p = false)
    (hrest : ∀ d ∈ rest, p d = true) (hmore : Parted more) :
    (rest ++ more).takeWhile p = rest := by
  rw [List.takeWhile_append_of_pos hrest]
  cases more with
  | nil => exact List.append_nil _
  | cons d more =>
    have hd : p d = false := Bool.eq_false_iff.2 (List.any_eq_false.1 hp d (hmore d rfl))
    rw [List.takeWhile_cons, hd]
    exact List.append_nil _

/-- No digit starts a name. -/
theorem startsName_of_isDigit (h : c.isDigit = true) : startsName c = false := by
  have hle : c.toNat ≤ 57 := by
    unfold Char.isDigit at h
    rw [Bool.and_eq_true, decide_eq_true_iff, decide_eq_true_iff] at h
    exact h.2
  have hletter : Text.isAlphabetic c = false := by
    show Text.Ranges.contains c.toNat (_ :: _) = false
    rw [Text.Ranges.contains, if_pos (by omega)]
    exact decide_eq_false (by omega)
  have hscore : c ≠ '_' := by
    rintro rfl
    exact absurd h (by decide)
  unfold startsName
  rw [hletter, decide_eq_false hscore]
  rfl

theorem read_of_startsName (h : startsName c = true) (rest : List Char) :
    read c rest = readWord c rest := by
  have hdigit : ¬ c.isDigit = true := fun hdigit =>
    Bool.false_ne_true ((startsName_of_isDigit hdigit).symm.trans h)
  unfold read
  split
  all_goals first
    | exact absurd h (by decide)
    | rw [if_neg hdigit, if_pos h]

theorem read_of_isDigit (h : c.isDigit = true) (rest : List Char) :
    read c rest = readNumber c rest := by
  unfold read
  split
  all_goals first
    | exact absurd h (by decide)
    | rw [if_pos h]

theorem read_word (hc : startsName c = true) (hrest : ∀ d ∈ rest, continuesName d = true)
    (hmore : Parted more) : read c (rest ++ more) =
      (token (Kind.ofWord (String.ofList (c :: rest))) (String.ofList (c :: rest)),
        rest.length) := by
  rw [read_of_startsName hc]
  unfold readWord
  rw [takeWhile_parted (by decide) hrest hmore]

theorem read_int (h : ∀ d ∈ c :: rest, d.isDigit = true) (hmore : Parted more) :
    read c (rest ++ more) = (token .int (String.ofList (c :: rest)), rest.length) := by
  obtain ⟨hc, hrest⟩ := List.forall_mem_cons.1 h
  rw [read_of_isDigit hc, readNumber_eq, takeWhile_parted (by decide) hrest hmore, List.drop_left]
  obtain rfl | ⟨d, after, rfl, rfl | rfl | rfl | rfl⟩ := hmore.cases <;> rfl

theorem read_float {whole fraction : List Char} (hwhole : ∀ d ∈ c :: whole, d.isDigit = true)
    (hfraction : Decimal.IsNatural fraction) (hmore : Parted more) :
    read c (whole ++ '.' :: fraction ++ more) =
      (token .float (String.ofList (c :: whole ++ '.' :: fraction)),
        (whole ++ '.' :: fraction).length) := by
  obtain ⟨hc, hwhole⟩ := List.forall_mem_cons.1 hwhole
  obtain ⟨d, fraction, rfl⟩ := List.exists_cons_of_ne_nil hfraction.1
  obtain ⟨hd, hfraction⟩ := List.forall_mem_cons.1 hfraction.2
  have htake : (whole ++ '.' :: (d :: fraction ++ more)).takeWhile Char.isDigit = whole :=
    Decimal.takeWhile_digits hwhole _ fun e he => by cases he; rfl
  rw [read_of_isDigit hc, readNumber_eq, List.append_assoc, List.cons_append, htake, List.drop_left]
  simp only [List.cons_append, hd, if_true, takeWhile_parted (p := Char.isDigit) (by decide)
    hfraction hmore, List.length_append, List.length_cons, Prod.mk.injEq, true_and]
  omega

end Lexeme

namespace Token

open Lexeme

/-! ## Tokens -/

/-- The token is one that a source can hold. -/
def Writable (t : Token) : Prop :=
  match t.kind with
  | .identifier => IsWord t.lexeme.toList ∧ Kind.ofWord t.lexeme = .identifier
  | .int | .float => t.kind.Spells t.lexeme.toList
  | .string => True
  | .illegal | .finish | .statements | .application | .methodCall => False
  | kind => t.lexeme = kind.name

/-- The way a token is written. -/
def spelling (t : Token) : List Char :=
  if t.kind = .string then '"' :: t.lexeme.toList.flatMap escape ++ ['"'] else t.lexeme.toList

/-- The text is read as the lexeme before a blank and at the end. -/
def ReadsAs (lexeme : Lexeme) : List Char → Prop
  | [] => False
  | c :: rest => ∀ more, Parted more → read c (rest ++ more) = (lexeme, rest.length)

theorem readsAs_string (text : String) : ReadsAs (.token .string text)
    ('"' :: text.toList.flatMap escape ++ ['"']) := by
  intro more _
  show (ofStringBody (readString (text.toList.flatMap escape ++ ['"'] ++ more)),
    (readString (text.toList.flatMap escape ++ ['"'] ++ more)).width) =
      (_, (text.toList.flatMap escape ++ ['"']).length)
  rw [List.append_assoc, List.singleton_append, readString_escapes, List.length_append]
  unfold ofStringBody
  dsimp only
  rw [String.ofList_toList]
  rfl

/-- A token before a blank or the end is read as it is. -/
theorem readsAs_spelling {t : Token} (h : t.Writable) :
    ReadsAs (.token t.kind t.lexeme) t.spelling := by
  obtain ⟨kind, lexeme, position⟩ := t
  cases kind
  case illegal | finish | statements | application | methodCall => exact h.elim
  case string =>
    have hspelling : spelling ⟨.string, lexeme, position⟩ =
        '"' :: lexeme.toList.flatMap escape ++ ['"'] := rfl
    rw [hspelling]
    exact readsAs_string lexeme
  case identifier =>
    obtain ⟨⟨c, rest, htext, hc, hrest⟩, hkind⟩ := h
    have hspelling : spelling ⟨.identifier, lexeme, position⟩ = c :: rest := htext
    have hlexeme : String.ofList (c :: rest) = lexeme := by rw [← htext, String.ofList_toList]
    rw [hspelling]
    intro more hmore
    rw [read_word hc hrest hmore, hlexeme, hkind]
  case int =>
    obtain ⟨hne, hdigits⟩ := h
    obtain ⟨c, rest, htext⟩ := List.exists_cons_of_ne_nil hne
    have hspelling : spelling ⟨.int, lexeme, position⟩ = c :: rest := htext
    have hlexeme : String.ofList (c :: rest) = lexeme := by rw [← htext, String.ofList_toList]
    rw [hspelling]
    intro more hmore
    rw [read_int (htext ▸ hdigits) hmore, hlexeme]
  case float =>
    obtain ⟨whole, fraction, htext, hwhole, hfraction⟩ := h
    obtain ⟨c, whole, rfl⟩ := List.exists_cons_of_ne_nil hwhole.1
    have hspelling : spelling ⟨.float, lexeme, position⟩ = c :: (whole ++ '.' :: fraction) := htext
    have hlexeme : String.ofList (c :: whole ++ '.' :: fraction) = lexeme := by
      rw [← htext, String.ofList_toList]
    rw [hspelling]
    intro more hmore
    rw [read_float hwhole.2 hfraction hmore, hlexeme]
  case funcWord | ifWord | elseWord | whileWord | returnWord | breakWord | continueWord |
      externWord | trueWord | falseWord | nilWord =>
    cases h
    simp only [spelling, String.reduceToList, reduceCtorEq, if_false]
    intro more hmore
    exact read_word (by decide) (List.all_eq_true.1 (by decide)) hmore
  all_goals
    cases h
    simp only [spelling, String.reduceToList, reduceCtorEq, if_false]
    intro more hmore
    obtain rfl | ⟨d, after, rfl, rfl | rfl | rfl | rfl⟩ := hmore.cases <;> rfl

/-! ## Lines -/

/-- Spaces, tabs and carriage returns. -/
def IsGap (text : List Char) : Prop :=
  ∀ c ∈ text, c = ' ' ∨ c = '\t' ∨ c = '\r'

instance (text : List Char) : Decidable (IsGap text) :=
  List.decidableBAll (fun c => c = ' ' ∨ c = '\t' ∨ c = '\r') text

/-- A comment, or nothing at all. -/
def IsComment (text : List Char) : Prop :=
  text = [] ∨ ∃ words, text = '#' :: words ∧ '\n' ∉ words

/-- Tokens one after the other, each with what stands behind it, and a comment behind them. -/
def separated (pieces : List (Token × List Char)) (comment : List Char) : List Char :=
  pieces.flatMap (fun piece => piece.1.spelling ++ piece.2) ++ comment

/-- What stands between the tokens are gaps, which only the last token can do without. -/
structure Separates (pieces : List (Token × List Char)) : Prop where
  gaps : ∀ piece ∈ pieces, IsGap piece.2
  apart : ∀ piece ∈ pieces.dropLast, piece.2 ≠ []

/-- The lexemes of a text that are not blank. -/
def solids (text : List Char) : List Lexeme :=
  ((lexemes .start 0 text).map PlacedLexeme.lexeme).filter (· ≠ .blank)

theorem lexemes_skip (front more : List Char) (position : Position) :
    ∃ position', lexemes position front.length (front ++ more) = lexemes position' 0 more := by
  induction front generalizing position with
  | nil => exact ⟨position, rfl⟩
  | cons c front ih => exact ih position.right

/-- The lexemes of a text that begins with what is read as a token. -/
theorem solids_of_readsAs {kind : Kind} {word : String} {text more : List Char}
    (h : ReadsAs (.token kind word) text) (hmore : Parted more) :
    solids (text ++ more) = .token kind word :: solids more := by
  cases text with
  | nil => exact h.elim
  | cons c rest =>
    obtain ⟨position, hrest⟩ := lexemes_skip rest more (placeAfter .start (.token kind word))
    unfold solids
    rw [List.cons_append, lexemes_cons, h more hmore, hrest, List.map_cons,
      lexemes_places more position .start 0]
    rfl

theorem solids_gap {gap : List Char} (h : IsGap gap) (more : List Char) :
    solids (gap ++ more) = solids more := by
  induction gap with
  | nil => rfl
  | cons c gap ih =>
    obtain ⟨hc, hgap⟩ := List.forall_mem_cons.1 h
    have hread : Lexeme.read c (gap ++ more) = (.blank, 0) := by
      rcases hc with rfl | rfl | rfl <;> rfl
    rw [← ih hgap]
    unfold solids
    rw [List.cons_append, lexemes_cons, hread, List.map_cons,
      lexemes_places (gap ++ more) _ .start 0]
    rfl

theorem solids_comment {comment : List Char} (h : IsComment comment) :
    solids comment = [.finish] := by
  obtain rfl | ⟨words, rfl, hwords⟩ := h
  · rfl
  · have htake : words.takeWhile (· ≠ '\n') = words := by
      refine List.takeWhile_eq_self_iff.2 fun c hc => decide_eq_true ?_
      rintro rfl
      exact hwords hc
    have hread : Lexeme.read '#' words = (.blank, words.length) := by
      show (Lexeme.blank, (words.takeWhile (· ≠ '\n')).length) = _
      rw [htake]
    obtain ⟨position, hrest⟩ := lexemes_skip words [] (placeAfter .start .blank)
    rw [List.append_nil] at hrest
    unfold solids
    rw [lexemes_cons, hread, hrest]
    rfl

theorem parted_comment {comment : List Char} (h : IsComment comment) : Parted comment := by
  obtain rfl | ⟨words, rfl, -⟩ := h
  · exact nofun
  · intro c hc
    cases hc
    decide

theorem parted_gap {gap : List Char} (h : IsGap gap) (hne : gap ≠ []) (more : List Char) :
    Parted (gap ++ more) := by
  obtain ⟨d, gap, rfl⟩ := List.exists_cons_of_ne_nil hne
  intro c hc
  cases hc
  rcases h d List.mem_cons_self with rfl | rfl | rfl <;> decide

/-- Separated tokens are read as they are, and nothing else is read but blanks. -/
theorem solids_separated {pieces : List (Token × List Char)} {comment : List Char}
    (htokens : ∀ piece ∈ pieces, piece.1.Writable) (hpieces : Separates pieces)
    (hcomment : IsComment comment) : solids (separated pieces comment) =
      pieces.map (fun piece => .token piece.1.kind piece.1.lexeme) ++ [.finish] := by
  induction pieces with
  | nil => exact solids_comment hcomment
  | cons piece rest ih =>
    obtain ⟨t, gap⟩ := piece
    obtain ⟨ht, hrest⟩ := List.forall_mem_cons.1 htokens
    obtain ⟨hgap, hgaps⟩ := List.forall_mem_cons.1 hpieces.gaps
    have hline : separated ((t, gap) :: rest) comment =
        t.spelling ++ (gap ++ separated rest comment) := by
      simp [separated]
    have hparted : Parted (gap ++ separated rest comment) := by
      cases rest with
      | nil =>
        by_cases hne : gap = []
        · subst hne
          exact parted_comment hcomment
        · exact parted_gap hgap hne _
      | cons => exact parted_gap hgap (hpieces.apart _ List.mem_cons_self) _
    have hseparates : Separates rest := by
      refine ⟨hgaps, fun piece hpiece => hpieces.apart piece ?_⟩
      cases rest with
      | nil => cases hpiece
      | cons => exact List.mem_cons_of_mem _ hpiece
    rw [hline, solids_of_readsAs (readsAs_spelling ht) hparted, solids_gap hgap,
      ih hrest hseparates]
    rfl

/-- Blanks give no tokens. -/
theorem layout_filter (row : List PlacedLexeme) : ∀ last,
    layout last (row.filter (·.lexeme ≠ .blank)) = layout last row := by
  induction row with
  | nil => exact fun _ => rfl
  | cons l row ih =>
    intro last
    obtain ⟨place, lexeme⟩ := l
    cases lexeme with
    | token kind text => exact congrArg (_ :: ·) (ih (some kind))
    | newline => exact congrArg (_ ++ ·) (ih none)
    | finish => exact congrArg (_ ++ _ :: ·) (ih none)
    | blank | faulty => exact ih last

/-- The layout of a row of tokens. -/
theorem layout_tokens {tokens : List Token} {row : List PlacedLexeme} (last : Option Kind)
    (h : row.map PlacedLexeme.lexeme =
      (tokens.map fun t => .token t.kind t.lexeme) ++ [.finish]) :
    (layout last row).map erased = tokens.map erased ++
      (closing .nowhere ((tokens.map kind).getLast?.or last) ++ [⟨.finish, "", .nowhere⟩]) := by
  have hclosing : ∀ place last, (closing place last).map erased = closing .nowhere last := by
    intro place last
    unfold closing
    split <;> rfl
  induction tokens generalizing row last with
  | nil =>
    obtain ⟨⟨place, _⟩, row, rfl, rfl, hrow⟩ := List.map_eq_cons_iff.1 h
    cases List.map_eq_nil_iff.1 hrow
    show (closing place last ++ [_]).map erased = _
    rw [List.map_append, hclosing]
    rfl
  | cons t rest ih =>
    obtain ⟨⟨place, _⟩, row, rfl, rfl, hrow⟩ := List.map_eq_cons_iff.1 h
    have hlast : ((t :: rest).map kind).getLast?.or last =
        (rest.map kind).getLast?.or (some t.kind) := by
      cases rest with
      | nil => rfl
      | cons u rest => simp [List.getLast?_cons]
    show t.erased :: (layout (some t.kind) row).map erased = _
    rw [hlast, ih (some t.kind) hrow]
    rfl

/-- A text whose lexemes are tokens and blanks is scanned as those tokens. -/
theorem scan_of_solids {text : List Char} {tokens : List Token}
    (h : solids text = (tokens.map fun t => .token t.kind t.lexeme) ++ [.finish]) :
    ∃ scanned, scan (String.ofList text) = .ok scanned ∧
      scanned.map erased = tokens.map erased ++
        (closing .nowhere (tokens.map kind).getLast? ++ [⟨.finish, "", .nowhere⟩]) := by
  have hsolid : ((lexemes .start 0 text).filter (·.lexeme ≠ .blank)).map PlacedLexeme.lexeme =
      (tokens.map fun t => .token t.kind t.lexeme) ++ [.finish] := by
    rw [← h, solids, List.filter_map]
    rfl
  refine ⟨_, scan_ok_iff.2 ⟨?_, rfl⟩, ?_⟩
  · rw [String.toList_ofList]
    intro l hl
    by_cases hblank : l.lexeme = .blank
    · rw [hblank]
      trivial
    · have hmem : l.lexeme ∈ (tokens.map fun t => Lexeme.token t.kind t.lexeme) ++ [.finish] :=
        hsolid ▸ List.mem_map_of_mem (List.mem_filter.2 ⟨hl, decide_eq_true hblank⟩)
      rcases List.mem_append.1 hmem with hmem | hmem
      · obtain ⟨t, -, ht⟩ := List.mem_map.1 hmem
        rw [← ht]
        trivial
      · rw [List.mem_singleton.1 hmem]
        trivial
  · rw [String.toList_ofList, ← layout_filter, layout_tokens none hsolid, Option.or_none]

/-- The tokens one after the other with blanks between them. -/
def spaced (tokens : List Token) : List Char :=
  [' '].intercalate (tokens.map spelling)

/-- Tokens with blanks between them are separated. -/
theorem spaced_eq (tokens : List Token) : ∃ pieces : List (Token × List Char),
    pieces.map Prod.fst = tokens ∧ Separates pieces ∧ spaced tokens = separated pieces [] := by
  induction tokens with
  | nil => exact ⟨[], rfl, ⟨nofun, nofun⟩, rfl⟩
  | cons t rest ih =>
    obtain ⟨pieces, rfl, hpieces, hline⟩ := ih
    have hblank : IsGap [' '] := List.forall_mem_singleton.2 (.inl rfl)
    cases pieces with
    | nil =>
      refine ⟨[(t, [])], rfl, ⟨List.forall_mem_singleton.2 nofun, nofun⟩, ?_⟩
      simp [spaced, separated]
    | cons piece pieces =>
      refine ⟨(t, [' ']) :: piece :: pieces, rfl, ⟨?_, ?_⟩, ?_⟩
      · exact List.forall_mem_cons.2 ⟨hblank, hpieces.gaps⟩
      · exact List.forall_mem_cons.2 ⟨List.cons_ne_nil _ _, hpieces.apart⟩
      · have hfirst : spaced (t :: (piece :: pieces).map Prod.fst) =
            t.spelling ++ ' ' :: spaced ((piece :: pieces).map Prod.fst) := rfl
        rw [hfirst, hline]
        simp [separated]

/-- Scanning tokens that are written on a line yields those tokens. -/
theorem scan_spaced {tokens : List Token} (h : ∀ t ∈ tokens, t.Writable) :
    ∃ scanned, scan (String.ofList (spaced tokens)) = .ok scanned ∧
      scanned.map erased = tokens.map erased ++
        (closing .nowhere (tokens.map kind).getLast? ++ [⟨.finish, "", .nowhere⟩]) := by
  obtain ⟨pieces, rfl, hpieces, hline⟩ := spaced_eq tokens
  refine scan_of_solids ?_
  rw [hline, solids_separated (List.forall_mem_map.1 h) hpieces (.inl rfl), List.map_map]
  rfl

/-- The kinds of tokens after which a line is closed by a semicolon. -/
def closers : List Kind :=
  [.identifier, .int, .float, .string, .trueWord, .falseWord, .nilWord, .breakWord, .continueWord,
    .returnWord, .rightParen, .rightBracket, .rightBrace]

theorem endsExpression_iff (kind : Kind) : kind.endsExpression = true ↔ kind ∈ closers := by
  cases kind <;> decide

/-- Tokens of any kinds that a source can hold, written on a line with any gaps between them and
perhaps a comment behind them, are scanned as those tokens. A semicolon follows exactly if the last
token is a name, a literal, a word that can end an expression or a closing bracket; the end of the
input follows in any case. -/
theorem scan_separated {lead comment : List Char} {pieces : List (Token × List Char)}
    (hlead : IsGap lead) (htokens : ∀ piece ∈ pieces, piece.1.Writable)
    (hpieces : Separates pieces) (hcomment : IsComment comment) :
    ∃ scanned, scan (String.ofList (lead ++ separated pieces comment)) = .ok scanned ∧
      scanned.map (fun t => (t.kind, t.lexeme)) =
        pieces.map (fun piece => (piece.1.kind, piece.1.lexeme)) ++
        (if ∃ piece ∈ pieces.getLast?, piece.1.kind ∈ closers then [(.semicolon, ";")] else []) ++
        [(.finish, "")] := by
  have hsolids : solids (lead ++ separated pieces comment) =
      ((pieces.map Prod.fst).map fun t => .token t.kind t.lexeme) ++ [.finish] := by
    rw [solids_gap hlead, solids_separated htokens hpieces hcomment, List.map_map]
    rfl
  obtain ⟨scanned, hscan, hscanned⟩ := scan_of_solids hsolids
  refine ⟨scanned, hscan, ?_⟩
  have herased : scanned.map (fun t => (t.kind, t.lexeme)) =
      (scanned.map erased).map fun t => (t.kind, t.lexeme) := by
    rw [List.map_map]
    rfl
  have hclosing : (closing .nowhere ((pieces.map Prod.fst).map kind).getLast?).map
      (fun t => (t.kind, t.lexeme)) =
        if ∃ piece ∈ pieces.getLast?, piece.1.kind ∈ closers then [(.semicolon, ";")] else [] := by
    rw [List.map_map, List.getLast?_map]
    cases pieces.getLast? with
    | none => simp [closing]
    | some piece =>
      by_cases hends : piece.1.kind ∈ closers
      · have hcloses := (endsExpression_iff _).2 hends
        simp [closing, hends, hcloses, Kind.name]
      · have hopen := Bool.eq_false_iff.2 (mt (endsExpression_iff _).1 hends)
        simp [closing, hends, hopen]
  rw [herased, hscanned, List.map_append, List.map_append, hclosing, List.append_assoc,
    List.map_map, List.map_map]
  rfl

/-- A name with a letter of another script, a point between blanks and in a number, a string of
which every second character has an escape, and a comment right behind it. -/
theorem scan_separated_string :
    ∃ scanned, scan "\té_1\t:= 1 . 5\r+ 2.50 \"a\\nb\\\"c\\\\\"# \"end" = .ok scanned ∧
      scanned.map (fun t => (t.kind, t.lexeme)) =
        [(.identifier, "é_1"), (.assign, ":="), (.int, "1"), (.period, "."), (.int, "5"),
          (.plus, "+"), (.float, "2.50"), (.string, "a\nb\"c\\"), (.semicolon, ";"),
          (.finish, "")] := by
  have hname : Writable ⟨.identifier, "é_1", .nowhere⟩ :=
    ⟨⟨_, _, rfl, by decide, List.all_eq_true.1 (by decide)⟩, by decide⟩
  have hdigit : ∀ {c : Char}, c.isDigit = true → Decimal.IsNatural [c] :=
    fun hc => ⟨List.cons_ne_nil _ _, List.forall_mem_singleton.2 hc⟩
  have hfloat : Writable ⟨.float, "2.50", .nowhere⟩ :=
    ⟨['2'], ['5', '0'], rfl, hdigit rfl, List.cons_ne_nil _ _, List.all_eq_true.1 (by decide)⟩
  have hpieces : Separates [(⟨.identifier, "é_1", .nowhere⟩, ['\t']),
      (⟨.assign, ":=", .nowhere⟩, [' ']), (⟨.int, "1", .nowhere⟩, [' ']),
      (⟨.period, ".", .nowhere⟩, [' ']), (⟨.int, "5", .nowhere⟩, ['\r']),
      (⟨.plus, "+", .nowhere⟩, [' ']), (⟨.float, "2.50", .nowhere⟩, [' ']),
      (⟨.string, "a\nb\"c\\", .nowhere⟩, [])] := ⟨by decide, by decide⟩
  have hlead : IsGap ['\t'] := by decide
  have hcomment : IsComment "# \"end".toList := .inr ⟨_, rfl, by decide⟩
  obtain ⟨scanned, hscan, hscanned⟩ := scan_separated hlead
    (by
      simp only [List.forall_mem_cons]
      exact ⟨hname, rfl, hdigit rfl, rfl, hdigit rfl, rfl, hfloat, trivial, nofun⟩)
    hpieces hcomment
  exact ⟨scanned, hscan, hscanned.trans (by decide)⟩

end Token

end Scripting

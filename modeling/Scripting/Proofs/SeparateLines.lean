import Mathlib.Data.List.Forall2
import Scripting.Proofs.JoinedTokens

/-!
# Proofs: the lines of a source are scanned apart

No lexeme without faults goes on behind a line end, and one that would has a fault on its own line
too. So a source has tokens exactly if each of its lines has, and they are the tokens of the lines,
each on its line, with a single end behind them.
-/

namespace Scripting

/-! ## Texts by lines -/

namespace Text

/-- What holds of texts of a single line, and of a text that has one line more in front if it holds
of the text, holds of all texts. -/
theorem induct_lines {P : List Char → Prop} (hline : ∀ line, '\n' ∉ line → P line)
    (hmore : ∀ line rest, '\n' ∉ line → P rest → P (line ++ '\n' :: rest)) (text : List Char) :
    P text := by
  induction h : text.length using Nat.strongRecOn generalizing text with
  | _ length ih =>
    by_cases hmem : '\n' ∈ text
    · obtain ⟨line, rest, rfl, hnone⟩ := List.eq_append_cons_of_mem hmem
      have hshorter : rest.length < length := by
        simp only [List.length_append, List.length_cons] at h
        omega
      exact hmore line rest hnone (ih _ hshorter rest rfl)
    · exact hline text hmem

theorem splitOn_line {line : List Char} (h : '\n' ∉ line) (rest : List Char) :
    (line ++ '\n' :: rest).splitOn '\n' = line :: rest.splitOn '\n' := by
  rw [List.splitOn_append_cons_self, List.splitOn_eq_singleton h]
  rfl

end Text

/-! ## Faults -/

namespace Lexeme

variable {c : Char} {rest : List Char}

theorem faultless_ofStringBody {body : StringBody} :
    (ofStringBody body).Faultless ↔ body.faults = [] := by
  unfold ofStringBody
  cases hfaults : body.faults with
  | nil => exact iff_of_true trivial rfl
  | cons => exact Iff.rfl

/-- A string without faults ends on its line. -/
theorem faults_of_append_line (more : List Char)
    (h : (readString (rest ++ '\n' :: more)).faults = []) : (readString rest).faults = [] := by
  induction rest using readString.induct with
  | case1 => cases h
  | case2 rest => cases h
  | case3 rest => rfl
  | case4 =>
    -- The backslash takes the line end, which has no escape.
    cases h
  | case5 c rest d hescape ih =>
    simp only [List.cons_append, readString, hescape] at h ⊢
    exact ih h
  | case6 c rest hescape ih =>
    simp only [List.cons_append, readString, hescape] at h
    cases h
  | case7 c rest hline hquote hsingle hescape ih =>
    have hread := readString_cons hline hquote (ne_slash_of_plain hsingle hescape)
    rw [List.cons_append, hread] at h
    rw [hread]
    exact ih h

theorem faultless_required {next : Char} {long : Kind} (hnext : next ≠ '\n') (more : List Char)
    (h : (required c next long (rest ++ '\n' :: more)).1.Faultless) :
    (required c next long rest).1.Faultless := by
  unfold required at h ⊢
  simpa only [head?_append_line hnext] using h

theorem faultless_readNumber : (readNumber c rest).1.Faultless := by
  rw [readNumber_eq]
  split
  · split <;> exact trivial
  · exact trivial

/-- A lexeme that has no faults before a line end and more has none before the line end alone. -/
theorem faultless_of_append_line (more : List Char)
    (h : (read c (rest ++ '\n' :: more)).1.Faultless) : (read c rest).1.Faultless := by
  unfold read at h ⊢
  split at h
  all_goals first
    | exact h
    | exact faultless_required (by decide) more h
    | exact faultless_ofStringBody.2 (faults_of_append_line more (faultless_ofStringBody.1 h))
    | skip
  all_goals try (unfold either; split <;> exact trivial)
  by_cases hdigit : c.isDigit = true
  · simp only [hdigit, if_true]
    exact faultless_readNumber
  · by_cases hname : startsName c = true
    · simp only [hdigit, hname, if_true]
      exact trivial
    · rw [if_neg hdigit, if_neg hname] at h ⊢
      exact h

theorem readNumber_ne_newline : (readNumber c rest).1 ≠ .newline := by
  rw [readNumber_eq]
  split
  · split <;> exact nofun
  · exact nofun

/-- Only a line end is read as one. -/
theorem read_ne_newline (hc : c ≠ '\n') (rest : List Char) : (read c rest).1 ≠ .newline := by
  intro h
  unfold read at h
  split at h
  all_goals first
    | exact absurd rfl hc
    | cases h
    | (unfold either at h; split at h <;> cases h)
    | (unfold required at h; split at h <;> cases h)
    | (unfold ofStringBody at h; dsimp only at h; split at h <;> cases h)
    | skip
  split at h
  · exact readNumber_ne_newline h
  · split at h <;> cases h

end Lexeme

namespace Token

/-- If a source has no faults, neither has its first line nor the rest. -/
theorem faultless_of_lexemes (text more : List Char) : ∀ (position : Position) (inside : Nat),
    inside ≤ text.length →
    (∀ l ∈ lexemes position inside (text ++ '\n' :: more), l.lexeme.Faultless) →
      ∀ l ∈ lexemes position inside text, l.lexeme.Faultless := by
  induction text with
  | nil =>
    intro position inside hinside _ l hl
    cases Nat.le_zero.1 hinside
    cases List.mem_singleton.1 hl
    exact trivial
  | cons c rest ih =>
    intro position inside hinside h
    cases inside with
    | succ inside => exact ih position.right inside (Nat.le_of_succ_le_succ hinside) h
    | zero =>
      rw [List.cons_append, lexemes_cons] at h
      obtain ⟨hfirst, hrest⟩ := List.forall_mem_cons.1 h
      have hown := Lexeme.faultless_of_append_line more hfirst
      have hsettled := Lexeme.settled_read more hown
      rw [hsettled.same] at hrest
      rw [lexemes_cons]
      exact List.forall_mem_cons.2 ⟨hown, ih _ _ hsettled.width hrest⟩

theorem faultless_places (text : List Char) (position position' : Position) :
    (∀ l ∈ lexemes position 0 text, l.lexeme.Faultless) ↔
      ∀ l ∈ lexemes position' 0 text, l.lexeme.Faultless := by
  rw [← List.forall_mem_map (f := PlacedLexeme.lexeme) (P := Lexeme.Faultless),
    lexemes_places text position position' 0, List.forall_mem_map]

theorem faultless_append_line_iff (text more : List Char) (position : Position) :
    (∀ l ∈ lexemes position 0 (text ++ '\n' :: more), l.lexeme.Faultless) ↔
      (∀ l ∈ lexemes position 0 text, l.lexeme.Faultless) ∧
        ∀ l ∈ lexemes position 0 more, l.lexeme.Faultless := by
  have hjoin : (∀ l ∈ lexemes position 0 text, l.lexeme.Faultless) →
      ((∀ l ∈ lexemes position 0 (text ++ '\n' :: more), l.lexeme.Faultless) ↔
        ∀ l ∈ lexemes position 0 more, l.lexeme.Faultless) := by
    intro h
    obtain ⟨row, place, -, hrow, hjoined⟩ :=
      lexemes_append_line text more position 0 (Nat.zero_le _) h
    rw [hrow] at h
    rw [hjoined, List.forall_mem_append, List.forall_mem_cons,
      faultless_places more place.below position]
    exact ⟨fun h' => h'.2.2, fun h' => ⟨(List.forall_mem_append.1 h).1, trivial, h'⟩⟩
  refine ⟨fun h => ?_, fun h => (hjoin h.1).2 h.2⟩
  have htext := faultless_of_lexemes text more position 0 (Nat.zero_le _) h
  exact ⟨htext, (hjoin htext).1 h⟩

/-! ## Places -/

/-- The token as it stands on another line. -/
def onLine (line : Nat) (t : Token) : Token :=
  { t with position := { t.position with line := line } }

theorem placeAfter_of_ne {position : Position} {lexeme : Lexeme} (h : lexeme ≠ .newline) :
    placeAfter position lexeme = position.right := by
  cases lexeme with
  | newline => exact absurd rfl h
  | _ => rfl

/-- A single line is read in the same way wherever it stands. -/
theorem lexemes_onLine (text : List Char) (hline : '\n' ∉ text) (i j column : Nat) :
    ∀ inside, lexemes ⟨j, column⟩ inside text =
      (lexemes ⟨i, column⟩ inside text).map fun l =>
        { l with position := { l.position with line := j } } := by
  induction text generalizing column with
  | nil => exact fun inside => by cases inside <;> rfl
  | cons c rest ih =>
    obtain ⟨hc, hrest⟩ := not_or.1 (mt List.mem_cons.2 hline)
    intro inside
    cases inside with
    | succ inside => exact ih hrest (column + 1) inside
    | zero =>
      have hread := Lexeme.read_ne_newline (Ne.symm hc) rest
      rw [lexemes_cons, lexemes_cons, placeAfter_of_ne hread, placeAfter_of_ne hread, List.map_cons]
      exact congrArg _ (ih hrest (column + 1) _)

theorem lexemes_finish (text : List Char) (hline : '\n' ∉ text) (line column : Nat) :
    ∀ inside, ∃ row, lexemes ⟨line, column⟩ inside text =
      row ++ [⟨⟨line, column + text.length⟩, .finish⟩] := by
  induction text generalizing column with
  | nil => exact fun inside => ⟨[], by cases inside <;> rfl⟩
  | cons c rest ih =>
    obtain ⟨hc, hrest⟩ := not_or.1 (mt List.mem_cons.2 hline)
    have hlength : column + (c :: rest).length = column + 1 + rest.length := by
      rw [List.length_cons]
      omega
    intro inside
    rw [hlength]
    cases inside with
    | succ inside => exact ih hrest (column + 1) inside
    | zero =>
      rw [lexemes_cons, placeAfter_of_ne (Lexeme.read_ne_newline (Ne.symm hc) rest)]
      obtain ⟨row, hrow⟩ := ih hrest (column + 1) (Lexeme.read c rest).2
      exact ⟨_ :: row, congrArg _ hrow⟩

/-- Tokens stand where the lexemes stand from which they are made. -/
theorem layout_map (place : Position → Position) (row : List PlacedLexeme) : ∀ last,
    layout last (row.map fun l => { l with position := place l.position }) =
      (layout last row).map fun t => { t with position := place t.position } := by
  have hclosing : ∀ position last, closing (place position) last =
      (closing position last).map fun t => { t with position := place t.position } := by
    intro position last
    unfold closing
    split <;> rfl
  induction row with
  | nil => exact fun _ => rfl
  | cons l row ih =>
    intro last
    obtain ⟨position, lexeme⟩ := l
    cases lexeme with
    | token kind text => exact congrArg (_ :: ·) (ih (some kind))
    | newline =>
      rw [List.map_cons, layout, layout, List.map_append, ← ih none, hclosing]
    | finish =>
      rw [List.map_cons, layout, layout, List.map_append, List.map_cons, ← ih none, hclosing]
    | blank | faulty => exact ih last

theorem layout_onLine {line : List Char} (hline : '\n' ∉ line) (i j : Nat) :
    layout none (lexemes ⟨j, 1⟩ 0 line) = (layout none (lexemes ⟨i, 1⟩ 0 line)).map (onLine j) := by
  rw [lexemes_onLine line hline i j 1 0]
  exact layout_map (fun position => { position with line := j }) _ none

/-! ## Sources by lines -/

/-- The tokens of a line, alone and before other lines. -/
theorem layout_line {line : List Char} (hline : '\n' ∉ line)
    (h : ∀ l ∈ lexemes .start 0 line, l.lexeme.Faultless) (i : Nat) (more : List Char) :
    ∃ front, (∀ t ∈ front, t.kind ≠ .finish) ∧
      layout none (lexemes ⟨i, 1⟩ 0 line) = front ++ [⟨.finish, "", ⟨i, line.length + 1⟩⟩] ∧
      layout none (lexemes ⟨i, 1⟩ 0 (line ++ '\n' :: more)) =
        front ++ layout none (lexemes ⟨i + 1, 1⟩ 0 more) := by
  have hfaultless := (faultless_places line .start ⟨i, 1⟩).1 h
  obtain ⟨row, place, hinside, hrow, hjoined⟩ :=
    lexemes_append_line line more ⟨i, 1⟩ 0 (Nat.zero_le _) hfaultless
  obtain ⟨row', hrow'⟩ := lexemes_finish line hline i 1 0
  obtain ⟨-, hlast⟩ := List.append_inj' (hrow.symm.trans hrow') rfl
  cases hlast
  obtain ⟨front, hkinds, hend, hmore⟩ :=
    layout_append hinside ⟨i, 1 + line.length⟩ (lexemes ⟨i + 1, 1⟩ 0 more) none
  rw [Nat.add_comm line.length, hrow, hjoined]
  exact ⟨front, hkinds, hend, hmore⟩

/-- The tokens of a line without the end of the input, moved to the line with the number `i`. -/
def moved (i : Nat) (tokens : List Token) : List Token :=
  (tokens.filter (·.kind ≠ .finish)).map (onLine i)

/-- The tokens that a line has when it stands alone, moved to the line with the number `i`, are
those that it has there, both alone and before other lines. -/
theorem layout_alone {line : List Char} (hline : '\n' ∉ line)
    (h : ∀ l ∈ lexemes .start 0 line, l.lexeme.Faultless) (i : Nat) (more : List Char) :
    layout none (lexemes ⟨i, 1⟩ 0 line) =
        moved i (layout none (lexemes .start 0 line)) ++
          [⟨.finish, "", ⟨i, line.length + 1⟩⟩] ∧
      layout none (lexemes ⟨i, 1⟩ 0 (line ++ '\n' :: more)) =
        moved i (layout none (lexemes .start 0 line)) ++
          layout none (lexemes ⟨i + 1, 1⟩ 0 more) := by
  obtain ⟨front, hkinds, hown, -⟩ := layout_line hline h 1 more
  obtain ⟨front', -, hend, hmore⟩ := layout_line hline h i more
  have hfilter : front.filter (·.kind ≠ .finish) = front :=
    List.filter_eq_self.2 fun t ht => decide_eq_true (hkinds t ht)
  have hmoved : moved i (layout none (lexemes .start 0 line)) = front.map (onLine i) := by
    unfold moved
    rw [show layout none (lexemes .start 0 line) = _ from hown, List.filter_append, hfilter]
    simp
  have hfront : front' = front.map (onLine i) := by
    rw [layout_onLine hline 1 i, hown, List.map_append] at hend
    exact (List.append_inj' hend rfl).1.symm
  rw [hmoved, ← hfront]
  exact ⟨hend, hmore⟩

/-- The run lemma of lines: the tokens of a text whose first line has the number `i`. -/
theorem layout_lines (text : List Char) : ∀ i : Nat,
    (∀ l ∈ lexemes ⟨i, 1⟩ 0 text, l.lexeme.Faultless) →
      layout none (lexemes ⟨i, 1⟩ 0 text) =
        (((text.splitOn '\n').map fun line => layout none (lexemes .start 0 line)).mapIdx
          fun k row => moved (i + k) row).flatten ++
        [⟨.finish, "", ⟨i + ((text.splitOn '\n').length - 1),
          ((text.splitOn '\n').getLastD []).length + 1⟩⟩] := by
  induction text using Text.induct_lines with
  | hline line hline =>
    intro i h
    rw [(layout_alone hline ((faultless_places line _ _).1 h) i []).1,
      List.splitOn_eq_singleton hline]
    simp
  | hmore line rest hline ih =>
    intro i h
    obtain ⟨hfirst, hrest⟩ := (faultless_append_line_iff line rest ⟨i, 1⟩).1 h
    rw [(layout_alone hline ((faultless_places line _ _).1 hfirst) i rest).2,
      ih (i + 1) ((faultless_places rest _ _).1 hrest), Text.splitOn_line hline]
    -- The rest has a first line, so its last line is that of the whole.
    obtain ⟨next, others, hlines⟩ := List.exists_cons_of_ne_nil (List.splitOn_ne_nil '\n' rest)
    rw [hlines]
    simp [Nat.add_assoc, Nat.add_comm 1]

theorem faultless_lines_iff (text : List Char) :
    (∀ l ∈ lexemes .start 0 text, l.lexeme.Faultless) ↔
      ∀ line ∈ text.splitOn '\n', ∀ l ∈ lexemes .start 0 line, l.lexeme.Faultless := by
  induction text using Text.induct_lines with
  | hline line hline => rw [List.splitOn_eq_singleton hline, List.forall_mem_singleton]
  | hmore line rest hline ih =>
    rw [faultless_append_line_iff, ih, Text.splitOn_line hline, List.forall_mem_cons]

/-- Lines that have tokens are without faults, and these are their tokens. -/
theorem rows_of_scans {lines : List (List Char)} {rows : List (List Token)}
    (h : List.Forall₂ (fun line row => scan (String.ofList line) = .ok row) lines rows) :
    (∀ line ∈ lines, ∀ l ∈ lexemes .start 0 line, l.lexeme.Faultless) ∧
      rows = lines.map fun line => layout none (lexemes .start 0 line) := by
  induction h with
  | nil => exact ⟨nofun, rfl⟩
  | cons hscan _ ih =>
    obtain ⟨hfaultless, hrow⟩ := scan_ok_iff.1 hscan
    rw [String.toList_ofList] at hfaultless hrow
    exact ⟨List.forall_mem_cons.2 ⟨hfaultless, ih.1⟩, by rw [List.map_cons, hrow, ih.2]⟩

/-- A source has tokens exactly if each of its lines has, scanned alone. They are the tokens of the
lines in order, each moved to its line and without the end, and then one end behind the last
line. -/
theorem scan_line_by_line (source : String) :
    ((∃ tokens, scan source = .ok tokens) ↔
      ∀ line ∈ source.toList.splitOn '\n', ∃ tokens, scan (String.ofList line) = .ok tokens) ∧
    ∀ rows : List (List Token),
      List.Forall₂ (fun line row => scan (String.ofList line) = .ok row)
        (source.toList.splitOn '\n') rows →
      scan source = .ok ((rows.mapIdx fun i row => moved (i + 1) row).flatten ++
        [⟨.finish, "", ⟨(source.toList.splitOn '\n').length,
          ((source.toList.splitOn '\n').getLastD []).length + 1⟩⟩]) := by
  constructor
  · simp only [scan_ok_iff, String.toList_ofList, exists_and_left, exists_eq', and_true]
    exact faultless_lines_iff source.toList
  · intro rows hrows
    obtain ⟨hlines, rfl⟩ := rows_of_scans hrows
    have hfaultless := (faultless_lines_iff source.toList).2 hlines
    have hcount : 1 + ((source.toList.splitOn '\n').length - 1) =
        (source.toList.splitOn '\n').length :=
      Nat.add_sub_cancel' (List.length_pos_of_ne_nil (List.splitOn_ne_nil _ _))
    refine scan_ok_iff.2 ⟨hfaultless, ?_⟩
    have hlayout := layout_lines source.toList 1 hfaultless
    simp only [hcount, Nat.add_comm 1] at hlayout
    exact hlayout

/-- A line that ends with an operator, one with a quote in its comment, and one that is a string. -/
theorem scan_line_by_line_three :
    scan "a := 1 +\n2 # \"\n\"b\"" = .ok
      [⟨.identifier, "a", ⟨1, 1⟩⟩, ⟨.assign, ":=", ⟨1, 3⟩⟩, ⟨.int, "1", ⟨1, 6⟩⟩,
        ⟨.plus, "+", ⟨1, 8⟩⟩, ⟨.int, "2", ⟨2, 1⟩⟩, ⟨.semicolon, ";", ⟨2, 6⟩⟩,
        ⟨.string, "b", ⟨3, 1⟩⟩, ⟨.semicolon, ";", ⟨3, 4⟩⟩, ⟨.finish, "", ⟨3, 4⟩⟩] := by
  obtain ⟨-, hrows⟩ := scan_line_by_line "a := 1 +\n2 # \"\n\"b\""
  exact hrows
    [[⟨.identifier, "a", ⟨1, 1⟩⟩, ⟨.assign, ":=", ⟨1, 3⟩⟩, ⟨.int, "1", ⟨1, 6⟩⟩,
        ⟨.plus, "+", ⟨1, 8⟩⟩, ⟨.finish, "", ⟨1, 9⟩⟩],
      [⟨.int, "2", ⟨1, 1⟩⟩, ⟨.semicolon, ";", ⟨1, 6⟩⟩, ⟨.finish, "", ⟨1, 6⟩⟩],
      [⟨.string, "b", ⟨1, 1⟩⟩, ⟨.semicolon, ";", ⟨1, 4⟩⟩, ⟨.finish, "", ⟨1, 4⟩⟩]]
    (.cons rfl (.cons rfl (.cons rfl .nil)))

end Token

end Scripting

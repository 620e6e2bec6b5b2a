import Scripting.Proofs.Spelling

/-!
# Proofs: the tokens of joined sources

A line end settles what stands before it: no lexeme without faults goes on behind one. So the tokens
of two sources, the second on a new line behind the first, are those of the first without its end
and then those of the second, up to their places.
-/

namespace Scripting

/-! ## Lexemes before a line end -/

namespace Lexeme

variable {c : Char} {rest more : List Char}

/-- The lexeme has no faults. -/
def Faultless : Lexeme → Prop
  | .faulty faults => faults = []
  | _ => True

/-- The lexeme does not end the input. -/
def Inner : Lexeme → Prop
  | .token kind _ => kind ≠ .finish
  | .finish => False
  | _ => True

/-- A reader finds the same if a line end and more follow. What it finds ends before that, and does
not end the input. -/
structure Settled (rest more : List Char) (reader : List Char → Lexeme × Nat) : Prop where
  same : reader (rest ++ '\n' :: more) = reader rest
  width : (reader rest).2 ≤ rest.length
  inner : (reader rest).1.Inner

theorem settled_const {lexeme : Lexeme} (h : lexeme.Inner) :
    Settled rest more fun _ => (lexeme, 0) :=
  ⟨rfl, Nat.zero_le _, h⟩

theorem head?_append_line {next : Char} (hnext : next ≠ '\n') :
    (rest ++ '\n' :: more).head? = some next ↔ rest.head? = some next := by
  cases rest with
  | nil => simp [Ne.symm hnext]
  | cons c rest => rfl

theorem length_pos_of_head? {next : Char} (h : rest.head? = some next) : 1 ≤ rest.length := by
  cases rest with
  | nil => cases h
  | cons c rest => exact Nat.le_add_left _ _

theorem settled_either {next : Char} {long short : Kind} (hnext : next ≠ '\n')
    (hlong : long ≠ .finish) (hshort : short ≠ .finish) :
    Settled rest more (either next long short) := by
  unfold either
  refine ⟨by simp only [head?_append_line hnext], ?_, ?_⟩
  · split
    · next h => exact length_pos_of_head? h
    · exact Nat.zero_le _
  · split
    · exact hlong
    · exact hshort

theorem settled_required {next : Char} {long : Kind} (hnext : next ≠ '\n')
    (hlong : long ≠ .finish) (h : (required c next long rest).1.Faultless) :
    Settled rest more (required c next long) := by
  unfold required at h ⊢
  have hhead : rest.head? = some next := by
    by_cases hhead : rest.head? = some next
    · exact hhead
    · rw [if_neg hhead] at h
      cases h
  refine ⟨by simp only [head?_append_line hnext], ?_, ?_⟩
  · simp only [hhead, if_true]
    exact length_pos_of_head? hhead
  · simp only [hhead, if_true]
    exact hlong

theorem takeWhile_append_line {p : Char → Bool} (hp : p '\n' = false) (rest more : List Char) :
    (rest ++ '\n' :: more).takeWhile p = rest.takeWhile p := by
  induction rest with
  | nil => simp [hp]
  | cons c rest ih => simp only [List.cons_append, List.takeWhile_cons, ih]

theorem ofWord_ne_finish (word : String) : Kind.ofWord word ≠ .finish := by
  unfold Kind.ofWord
  cases hfind : Kind.keywords.find? (·.name = word) with
  | none => decide
  | some kind =>
    rintro rfl
    exact absurd (List.mem_of_find?_eq_some hfind) (by decide)

theorem settled_readWord : Settled rest more (readWord c) := by
  have hline : continuesName '\n' = false := by decide
  unfold readWord
  exact ⟨by simp only [takeWhile_append_line hline], (List.takeWhile_sublist _).length_le,
    ofWord_ne_finish _⟩

theorem settled_comment :
    Settled rest more fun rest => (blank, (rest.takeWhile (· ≠ '\n')).length) :=
  ⟨by simp only [takeWhile_append_line (p := (· ≠ '\n')) (by decide)],
    (List.takeWhile_sublist _).length_le, trivial⟩

/-- Reads a number whose digits before a point are known. -/
theorem readNumber_eq (c : Char) (rest : List Char) :
    readNumber c rest = match rest.drop (rest.takeWhile Char.isDigit).length with
      | '.' :: d :: after =>
        if d.isDigit then
          (token .float (String.ofList
            (c :: rest.takeWhile Char.isDigit ++ '.' :: d :: after.takeWhile Char.isDigit)),
            (rest.takeWhile Char.isDigit).length + 1 + (d :: after.takeWhile Char.isDigit).length)
        else (token .int (String.ofList (c :: rest.takeWhile Char.isDigit)),
          (rest.takeWhile Char.isDigit).length)
      | _ => (token .int (String.ofList (c :: rest.takeWhile Char.isDigit)),
        (rest.takeWhile Char.isDigit).length) := rfl

theorem settled_readNumber : Settled rest more (readNumber c) := by
  have hline : Char.isDigit '\n' = false := by decide
  have hwhole : (rest.takeWhile Char.isDigit).length ≤ rest.length :=
    (List.takeWhile_sublist _).length_le
  have hsplit : (rest ++ '\n' :: more).drop (rest.takeWhile Char.isDigit).length =
      rest.drop (rest.takeWhile Char.isDigit).length ++ '\n' :: more :=
    List.drop_append_of_le_length hwhole
  have hlength : (rest.drop (rest.takeWhile Char.isDigit).length).length =
      rest.length - (rest.takeWhile Char.isDigit).length := List.length_drop
  constructor
  · rw [readNumber_eq, readNumber_eq, takeWhile_append_line hline, hsplit]
    match rest.drop (rest.takeWhile Char.isDigit).length with
    | [] => rfl
    | [d] =>
      by_cases hpoint : d = '.'
      · subst hpoint
        rfl
      · simp [hpoint]
    | d :: e :: after =>
      by_cases hpoint : d = '.'
      · subst hpoint
        simp only [List.cons_append, takeWhile_append_line hline]
      · simp [hpoint]
  · rw [readNumber_eq]
    split
    · next d after hdrop =>
      rw [hdrop] at hlength
      have hafter : (after.takeWhile Char.isDigit).length ≤ after.length :=
        (List.takeWhile_sublist _).length_le
      simp only [List.length_cons] at hlength
      split
      · simp only [List.length_cons]
        omega
      · exact hwhole
    · exact hwhole
  · rw [readNumber_eq]
    split
    · split <;> exact nofun
    · exact nofun

/-- A character of a string that neither ends it nor starts an escape stands for itself. -/
theorem readString_cons (hline : c ≠ '\n') (hquote : c ≠ '"') (hslash : c ≠ '\\')
    (rest : List Char) : readString (c :: rest) =
      ⟨c :: (readString rest).text, (readString rest).faults, (readString rest).width + 1⟩ := by
  rw [readString]
  · exact fun e => hline e
  · exact fun e => hquote e
  · exact fun e => absurd e hslash
  · exact fun _ _ e => absurd e hslash

/-- In the last case of `readString` the character is no backslash. -/
theorem ne_slash_of_plain (hsingle : c = '\\' → rest = [] → False)
    (hescape : ∀ (d : Char) (after : List Char), c = '\\' → rest = d :: after → False) :
    c ≠ '\\' := by
  cases rest with
  | nil => exact fun e => hsingle e rfl
  | cons d rest => exact fun e => hescape d rest e rfl

theorem readString_append_line (more : List Char) (h : (readString rest).faults = []) :
    readString (rest ++ '\n' :: more) = readString rest ∧
      (readString rest).width ≤ rest.length := by
  induction rest using readString.induct with
  | case1 => cases h
  | case2 rest => cases h
  | case3 rest => exact ⟨rfl, Nat.le_add_left _ _⟩
  | case4 => cases h
  | case5 c rest d hescape ih =>
    have hread : ∀ rest, readString ('\\' :: c :: rest) = ⟨d :: (readString rest).text,
        (readString rest).faults, (readString rest).width + 2⟩ := by
      intro rest
      simp only [readString, hescape]
    rw [hread] at h
    obtain ⟨hsame, hwidth⟩ := ih h
    rw [List.cons_append, List.cons_append, hread, hread, hsame]
    exact ⟨rfl, Nat.add_le_add_right hwidth 2⟩
  | case6 c rest hescape ih =>
    simp only [readString, hescape] at h
    cases h
  | case7 c rest hline hquote hsingle hescape ih =>
    have hread := readString_cons hline hquote (ne_slash_of_plain hsingle hescape)
    rw [hread] at h
    obtain ⟨hsame, hwidth⟩ := ih h
    rw [List.cons_append, hread, hread, hsame]
    exact ⟨rfl, Nat.add_le_add_right hwidth 1⟩

theorem settled_string (h : (ofStringBody (readString rest)).Faultless) :
    Settled rest more fun rest => (ofStringBody (readString rest), (readString rest).width) := by
  have hfaults : (readString rest).faults = [] := by
    unfold ofStringBody at h
    cases hfaults : (readString rest).faults with
    | nil => rfl
    | cons fault faults =>
      rw [hfaults] at h
      cases h
  obtain ⟨hsame, hwidth⟩ := readString_append_line more hfaults
  refine ⟨by simp only [hsame], hwidth, ?_⟩
  unfold ofStringBody
  simp only [hfaults]
  exact nofun

/-- A lexeme without faults is settled. -/
theorem settled_read (more : List Char) (h : (read c rest).1.Faultless) :
    Settled rest more (read c) := by
  unfold read at h ⊢
  split at h
  all_goals first
    | exact settled_const trivial
    | exact settled_const nofun
    | exact settled_either (by decide) (by decide) (by decide)
    | exact settled_required (by decide) (by decide) h
    | exact settled_comment
    | exact settled_string h
    | skip
  by_cases hdigit : c.isDigit = true
  · simp only [hdigit, if_true]
    exact settled_readNumber
  · by_cases hname : startsName c = true
    · simp only [hdigit, hname, if_true]
      exact settled_readWord
    · rw [if_neg hdigit, if_neg hname] at h
      cases h

end Lexeme

namespace Token

/-! ## Rows of lexemes -/

/-- No lexeme of the row ends the input. -/
def Inside (row : List PlacedLexeme) : Prop :=
  ∀ l ∈ row, l.lexeme.Inner

/-- The place behind the first character of a lexeme. -/
def placeAfter (position : Position) : Lexeme → Position
  | .newline => position.below
  | _ => position.right

theorem lexemes_cons (position : Position) (c : Char) (rest : List Char) :
    lexemes position 0 (c :: rest) = ⟨position, (Lexeme.read c rest).1⟩ ::
      lexemes (placeAfter position (Lexeme.read c rest).1) (Lexeme.read c rest).2 rest := by
  rw [lexemes]
  split
  · next h =>
    rw [h]
    rfl
  · next lexeme width hne h =>
    rw [h]
    cases lexeme with
    | newline => exact absurd rfl hne
    | _ => rfl

/-- A text without faults is read the same before a line end. -/
theorem lexemes_append_line (text more : List Char) : ∀ (position : Position) (inside : Nat),
    inside ≤ text.length →
    (∀ l ∈ lexemes position inside text, l.lexeme.Faultless) →
      ∃ row place, Inside row ∧ lexemes position inside text = row ++ [⟨place, .finish⟩] ∧
        lexemes position inside (text ++ '\n' :: more) =
          row ++ ⟨place, .newline⟩ :: lexemes place.below 0 more := by
  induction text with
  | nil =>
    intro position inside hinside _
    cases Nat.le_zero.1 hinside
    exact ⟨[], position, nofun, rfl, rfl⟩
  | cons c rest ih =>
    intro position inside hinside hfaults
    cases inside with
    | succ inside =>
      exact ih position.right inside (Nat.le_of_succ_le_succ hinside) hfaults
    | zero =>
      rw [lexemes_cons] at hfaults
      obtain ⟨hfirst, hrest⟩ := List.forall_mem_cons.1 hfaults
      have hsettled := Lexeme.settled_read more hfirst
      obtain ⟨row, place, hclean, hrow, hjoined⟩ := ih _ _ hsettled.width hrest
      refine ⟨⟨position, (Lexeme.read c rest).1⟩ :: row, place, ?_, ?_, ?_⟩
      · exact List.forall_mem_cons.2 ⟨hsettled.inner, hclean⟩
      · rw [lexemes_cons, hrow, List.cons_append]
      · rw [List.cons_append, lexemes_cons, hsettled.same, hjoined, List.cons_append]

/-- Behind a clean row, the end of the input closes the line as a line end does. -/
theorem layout_append {row : List PlacedLexeme} (hclean : Inside row) (place : Position)
    (more : List PlacedLexeme) : ∀ last : Option Kind, ∃ tokens,
      (∀ t ∈ tokens, t.kind ≠ .finish) ∧
      layout last (row ++ [⟨place, .finish⟩]) = tokens ++ [⟨.finish, "", place⟩] ∧
      layout last (row ++ ⟨place, .newline⟩ :: more) = tokens ++ layout none more := by
  have hclosing : ∀ place last, ∀ t ∈ closing place last, t.kind ≠ .finish := by
    intro place last t ht
    unfold closing at ht
    split at ht
    · cases List.mem_singleton.1 ht
      exact nofun
    · cases ht
  induction row with
  | nil => exact fun last => ⟨closing place last, hclosing place last, rfl, rfl⟩
  | cons l row ih =>
    intro last
    obtain ⟨hinner, hrow⟩ := List.forall_mem_cons.1 hclean
    obtain ⟨position, lexeme⟩ := l
    cases lexeme with
    | token kind text =>
      obtain ⟨tokens, hkinds, hend, hmore⟩ := ih hrow (some kind)
      refine ⟨⟨kind, text, position⟩ :: tokens, ?_, ?_, ?_⟩
      · exact List.forall_mem_cons.2 ⟨hinner, hkinds⟩
      · exact congrArg _ hend
      · exact congrArg _ hmore
    | newline =>
      obtain ⟨tokens, hkinds, hend, hmore⟩ := ih hrow none
      refine ⟨closing position last ++ tokens, ?_, ?_, ?_⟩
      · exact List.forall_mem_append.2 ⟨hclosing position last, hkinds⟩
      · rw [List.append_assoc, ← hend]
        rfl
      · rw [List.append_assoc, ← hmore]
        rfl
    | blank | faulty => exact ih hrow last
    | finish => exact hinner.elim

/-! ## Places do not matter -/

/-- The token without its place. -/
def erased (t : Token) : Token :=
  { t with position := .nowhere }

/-- The lexemes of a text are the same wherever it starts. -/
theorem lexemes_places (text : List Char) : ∀ (position position' : Position) (inside : Nat),
    (lexemes position inside text).map PlacedLexeme.lexeme =
      (lexemes position' inside text).map PlacedLexeme.lexeme := by
  induction text with
  | nil => exact fun _ _ inside => by cases inside <;> rfl
  | cons c rest ih =>
    intro position position' inside
    cases inside with
    | zero =>
      rw [lexemes_cons, lexemes_cons, List.map_cons, List.map_cons]
      exact congrArg _ (ih _ _ _)
    | succ inside => exact ih _ _ inside

theorem erased_closing (place place' : Position) (last : Option Kind) :
    (closing place last).map erased = (closing place' last).map erased := by
  unfold closing
  split <;> rfl

/-- Rows with the same lexemes give the same tokens up to their places. -/
theorem erased_layout {row : List PlacedLexeme} : ∀ {row' : List PlacedLexeme}
    (last : Option Kind), row.map PlacedLexeme.lexeme = row'.map PlacedLexeme.lexeme →
      (layout last row).map erased = (layout last row').map erased := by
  induction row with
  | nil =>
    intro row' last h
    rw [List.map_eq_nil_iff.1 h.symm]
  | cons l row ih =>
    intro row' last h
    obtain ⟨l', rest', rfl, hl, hrest⟩ := List.map_eq_cons_iff.1 h.symm
    obtain ⟨place, lexeme⟩ := l
    obtain ⟨place', lexeme'⟩ := l'
    cases hl
    cases lexeme with
    | token kind text => exact congrArg (_ :: ·) (ih (some kind) hrest.symm)
    | newline =>
      simp only [layout, List.map_append, erased_closing place place' last, ih none hrest.symm]
    | finish =>
      simp only [layout, List.map_append, List.map_cons, erased_closing place place' last,
        ih none hrest.symm]
      rfl
    | blank | faulty =>
      show (layout last row).map erased = (layout last rest').map erased
      exact ih last hrest.symm

/-! ## Joined sources -/

theorem errors_eq_nil_iff {l : PlacedLexeme} : l.errors = [] ↔ l.lexeme.Faultless := by
  obtain ⟨position, lexeme⟩ := l
  cases lexeme with
  | faulty faults => exact List.map_eq_nil_iff
  | _ => exact iff_of_true rfl trivial

theorem scan_ok_iff {source : String} {tokens : List Token} :
    scan source = .ok tokens ↔
      (∀ l ∈ lexemes .start 0 source.toList, l.lexeme.Faultless) ∧
        layout none (lexemes .start 0 source.toList) = tokens := by
  have hnone : (lexemes .start 0 source.toList).flatMap PlacedLexeme.errors = [] ↔
      ∀ l ∈ lexemes .start 0 source.toList, l.lexeme.Faultless := by
    rw [List.flatMap_eq_nil_iff]
    exact forall₂_congr fun _ _ => errors_eq_nil_iff
  rw [← hnone]
  unfold scan
  dsimp only
  split
  · next h => simp [h]
  · next hne => exact iff_of_false nofun fun h => hne h.1

/-- The tokens of a source are laid out from the lexemes inside of it, and the end comes last. -/
theorem layout_of_scan {source : String} {tokens : List Token} (h : scan source = .ok tokens) :
    ∃ row place front, Inside row ∧ layout none (row ++ [⟨place, .finish⟩]) = tokens ∧
      tokens = front ++ [⟨.finish, "", place⟩] ∧ ∀ t ∈ front, t.kind ≠ .finish := by
  obtain ⟨hfaultless, rfl⟩ := scan_ok_iff.1 h
  obtain ⟨row, place, hinside, hrow, -⟩ :=
    lexemes_append_line source.toList [] .start 0 (Nat.zero_le _) hfaultless
  obtain ⟨front, hkinds, hend, -⟩ := layout_append hinside place [] none
  exact ⟨row, place, front, hinside, by rw [hrow], by rw [hrow, hend], hkinds⟩

/-- A second source on a new line adds its tokens to those of the first in the place of the end. -/
theorem scan_join {first second : String} {tokens tokens' : List Token}
    (h : scan first = .ok tokens) (h' : scan second = .ok tokens') :
    ∃ front place added, (∀ t ∈ front, t.kind ≠ .finish) ∧
      tokens = front ++ [⟨.finish, "", place⟩] ∧
      scan (first ++ "\n" ++ second) = .ok (front ++ added) ∧
      added.map erased = tokens'.map erased := by
  obtain ⟨hfaultless, rfl⟩ := scan_ok_iff.1 h
  obtain ⟨hfaultless', rfl⟩ := scan_ok_iff.1 h'
  obtain ⟨row, place, hinside, hrow, hjoined⟩ :=
    lexemes_append_line first.toList second.toList .start 0 (Nat.zero_le _) hfaultless
  obtain ⟨front, hkinds, hend, hmore⟩ :=
    layout_append hinside place (lexemes place.below 0 second.toList) none
  have hplaces := lexemes_places second.toList place.below .start 0
  have hline : (first ++ "\n" ++ second).toList = first.toList ++ '\n' :: second.toList := by
    simp
  refine ⟨front, place, _, hkinds, hrow ▸ hend, scan_ok_iff.2 ?_, erased_layout none hplaces⟩
  rw [hline, hjoined]
  refine ⟨List.forall_mem_append.2 ⟨?_, List.forall_mem_cons.2 ⟨trivial, ?_⟩⟩, hmore⟩
  · exact fun l hl => hfaultless l (hrow ▸ List.mem_append_left _ hl)
  · rw [← List.forall_mem_map (f := PlacedLexeme.lexeme) (P := Lexeme.Faultless), hplaces,
      List.forall_mem_map]
    exact hfaultless'

end Token

end Scripting

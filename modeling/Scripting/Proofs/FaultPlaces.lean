import Scripting.Proofs.SeparateLines

/-!
# Proofs: where faults are reported

A fault is reported at the start of its lexeme, and the lexemes are read from the start of the
source to its end, so faults come in the order of the source. The line of a lexeme is counted by the
line ends that are lexemes of their own. A backslash in a string takes a line end into the string,
where it is a fault and is not counted. So a fault is at its true place exactly if no string before
it has a backslash at the end of a line.
-/

namespace Scripting

/-! ## Places in a text -/

namespace Position

/-- The place of what stands behind a text: as many lines down as the text has line ends, and as
many columns to the right as it has characters behind the last of them. -/
def behind (text : List Char) : Position :=
  ⟨1 + text.count '\n', 1 + (text.reverse.takeWhile (· ≠ '\n')).length⟩

theorem behind_newline (text : List Char) : behind (text ++ ['\n']) = (behind text).below := by
  simp [behind, below, Nat.add_assoc]

theorem behind_append {more : List Char} (h : '\n' ∉ more) (text : List Char) :
    behind (text ++ more) = ⟨(behind text).line, (behind text).column + more.length⟩ := by
  have hreverse : ∀ c ∈ more.reverse, decide (c ≠ '\n') = true := by
    intro c hc
    refine decide_eq_true ?_
    rintro rfl
    exact h (List.mem_reverse.1 hc)
  unfold behind
  rw [List.count_append, List.count_eq_zero.2 h, List.reverse_append,
    List.takeWhile_append_of_pos hreverse, List.length_append, List.length_reverse]
  simp only [Nat.add_zero, Position.mk.injEq, true_and]
  omega

theorem line_behind_append (text more : List Char) :
    (behind (text ++ more)).line = (behind text).line + more.count '\n' := by
  show 1 + (text ++ more).count '\n' = 1 + text.count '\n' + more.count '\n'
  rw [List.count_append, Nat.add_assoc]

end Position

/-! ## What a lexeme takes -/

/-- The fault can be that of a lexeme which starts with the character: it is the character itself
that is at fault, or a string. -/
def Fault.StartsWith (c : Char) : Fault → Prop
  | .unexpectedCharacter d => d = c
  | .unterminatedString | .unknownEscape _ => c = '"'

namespace Lexeme

/-- The faults of a lexeme. -/
def faults : Lexeme → List Fault
  | .faulty faults => faults
  | _ => []

theorem faults_ofStringBody (body : StringBody) : (ofStringBody body).faults = body.faults := by
  unfold ofStringBody
  cases hfaults : body.faults with
  | nil => rfl
  | cons => rfl

variable {c : Char} {rest : List Char}

/-- A string goes over a line end exactly if it has a backslash before one. -/
theorem newline_mem_string_iff (rest : List Char) :
    '\n' ∈ rest.take (readString rest).width ↔ .unknownEscape '\n' ∈ (readString rest).faults := by
  induction rest using readString.induct with
  | case1 | case2 | case3 | case4 => simp [readString]
  | case5 c rest d hescape ih =>
    have hc : '\n' ≠ c := by
      rintro rfl
      cases hescape
    simp [readString, hescape, hc, ih]
  | case6 c rest hescape ih => simp [readString, hescape, ih]
  | case7 c rest hline hquote hsingle hescape ih =>
    have hc : '\n' ≠ c := fun e => hline e.symm
    rw [readString_cons hline hquote (ne_slash_of_plain hsingle hescape)]
    simp [hc, ih]

theorem newline_not_mem_takeWhile {p : Char → Bool} (hp : p '\n' = false) (rest : List Char) :
    '\n' ∉ rest.take (rest.takeWhile p).length := by
  rw [← List.prefix_iff_eq_take.1 (List.takeWhile_prefix p)]
  intro hmem
  exact Bool.false_ne_true (hp.symm.trans (List.all_eq_true.1 List.all_takeWhile _ hmem))

theorem newline_not_mem_head {next : Char} (hnext : next ≠ '\n') (h : rest.head? = some next) :
    '\n' ∉ rest.take 1 := by
  obtain ⟨more, rfl⟩ := List.head?_eq_some_iff.1 h
  simpa using hnext.symm

/-- A number stays on its line and has no faults. -/
theorem readNumber_inline (c : Char) (rest : List Char) :
    '\n' ∉ rest.take (readNumber c rest).2 ∧ (readNumber c rest).1.faults = [] := by
  have hdigit : Char.isDigit '\n' = false := by decide
  have hwhole := newline_not_mem_takeWhile hdigit rest
  rw [readNumber_eq]
  split
  · next d after hdrop =>
    split
    · next hd =>
      have hd : '\n' ≠ d := by
        rintro rfl
        exact Bool.false_ne_true (hdigit.symm.trans hd)
      have hafter := newline_not_mem_takeWhile hdigit after
      refine ⟨?_, rfl⟩
      rw [Nat.add_assoc, List.take_add, hdrop, Nat.add_comm 1, List.take_succ_cons,
        List.length_cons, List.take_succ_cons]
      simpa [hd, hafter] using hwhole
    · exact ⟨hwhole, rfl⟩
  · exact ⟨hwhole, rfl⟩

theorem newline_mem_either_iff {next : Char} {long short : Kind} (hnext : next ≠ '\n') :
    '\n' ∈ rest.take (either next long short rest).2 ↔
      .unknownEscape '\n' ∈ (either next long short rest).1.faults := by
  unfold either
  split
  · next h => exact iff_of_false (newline_not_mem_head hnext h) List.not_mem_nil
  · exact iff_of_false List.not_mem_nil List.not_mem_nil

theorem newline_mem_required_iff {next : Char} {long : Kind} (hnext : next ≠ '\n') :
    '\n' ∈ rest.take (required c next long rest).2 ↔
      .unknownEscape '\n' ∈ (required c next long rest).1.faults := by
  unfold required
  split
  · next h => exact iff_of_false (newline_not_mem_head hnext h) List.not_mem_nil
  · exact iff_of_false List.not_mem_nil (List.mem_singleton.not.2 nofun)

/-- A lexeme goes over a line end exactly if it is a string with a backslash before one. -/
theorem newline_mem_iff (c : Char) (rest : List Char) :
    '\n' ∈ rest.take (read c rest).2 ↔ .unknownEscape '\n' ∈ (read c rest).1.faults := by
  unfold read
  split
  all_goals first
    | exact iff_of_false List.not_mem_nil List.not_mem_nil
    | exact newline_mem_either_iff (by decide)
    | exact newline_mem_required_iff (by decide)
    | skip
  · exact iff_of_false (newline_not_mem_takeWhile (p := (· ≠ '\n')) (by decide) rest)
      List.not_mem_nil
  · rw [faults_ofStringBody]
    exact newline_mem_string_iff rest
  · split
    · obtain ⟨htext, hfaults⟩ := readNumber_inline c rest
      exact iff_of_false htext (hfaults ▸ List.not_mem_nil)
    · split
      · exact iff_of_false (newline_not_mem_takeWhile (by decide) rest) List.not_mem_nil
      · exact iff_of_false List.not_mem_nil (List.mem_singleton.not.2 nofun)

theorem startsWith_of_mem_string {fault : Fault} (h : fault ∈ (readString rest).faults) :
    fault.StartsWith '"' := by
  induction rest using readString.induct with
  | case1 | case2 | case4 =>
    simp only [readString, List.mem_cons, List.not_mem_nil, or_false] at h
    rcases h with rfl | rfl <;> rfl
  | case3 rest => cases h
  | case5 c rest d hescape ih =>
    simp only [readString, hescape] at h
    exact ih h
  | case6 c rest hescape ih =>
    simp only [readString, hescape] at h
    rcases List.mem_cons.1 h with rfl | h
    · rfl
    · exact ih h
  | case7 c rest hline hquote hsingle hescape ih =>
    rw [readString_cons hline hquote (ne_slash_of_plain hsingle hescape)] at h
    exact ih h

/-- All faults of a lexeme are of its first character, or it is a string. -/
theorem startsWith_of_mem_faults {fault : Fault} {c : Char} (rest : List Char)
    (h : fault ∈ (read c rest).1.faults) : fault.StartsWith c := by
  have heither : ∀ {next : Char} {long short : Kind},
      fault ∉ (either next long short rest).1.faults := by
    intro next long short
    unfold either
    split <;> exact List.not_mem_nil
  have hrequired : ∀ {next : Char} {long : Kind},
      fault ∈ (required c next long rest).1.faults → fault.StartsWith c := by
    intro next long h
    unfold required at h
    split at h
    · cases h
    · cases List.mem_singleton.1 h
      rfl
  unfold read at h
  split at h
  all_goals first
    | exact absurd h List.not_mem_nil
    | exact absurd h heither
    | exact hrequired h
    | skip
  · rw [faults_ofStringBody] at h
    exact startsWith_of_mem_string h
  · split at h
    · rw [(readNumber_inline c rest).2] at h
      cases h
    · split at h
      · cases h
      · cases List.mem_singleton.1 h
        rfl

end Lexeme

namespace Token

/-! ## The lexemes of a text, each with the text before it -/

/-- A lexeme of a text with its place, and the text before it. -/
structure Stretch where
  /-- All that stands before the lexeme. -/
  before : List Char
  /-- The lexeme at the place that is counted for it. -/
  placed : PlacedLexeme

/-- The lexemes of a text, as `lexemes` finds them, except for the end of the input. -/
def stretches (before : List Char) (position : Position) : (inside : Nat) → List Char →
    List Stretch
  | _, [] => []
  | inside + 1, c :: rest => stretches (before ++ [c]) position.right inside rest
  | 0, c :: rest =>
    ⟨before, position, (Lexeme.read c rest).1⟩ ::
      stretches (before ++ [c]) (placeAfter position (Lexeme.read c rest).1)
        (Lexeme.read c rest).2 rest

theorem lexemes_eq_stretches (text before : List Char) : ∀ (position : Position) (inside : Nat),
    ∃ place, lexemes position inside text =
      (stretches before position inside text).map Stretch.placed ++ [⟨place, .finish⟩] := by
  induction text generalizing before with
  | nil => exact fun position inside => ⟨position, by cases inside <;> rfl⟩
  | cons c rest ih =>
    intro position inside
    cases inside with
    | succ inside => exact ih (before ++ [c]) position.right inside
    | zero =>
      obtain ⟨place, hrest⟩ := ih (before ++ [c]) (placeAfter position (Lexeme.read c rest).1)
        (Lexeme.read c rest).2
      exact ⟨place, by rw [lexemes_cons, hrest]; rfl⟩

/-- Inside a lexeme, only characters are counted. -/
theorem stretches_inside (text before : List Char) : ∀ (position : Position) (inside : Nat),
    stretches before position inside text =
      stretches (before ++ text.take inside)
        ⟨position.line, position.column + (text.take inside).length⟩ 0 (text.drop inside) := by
  induction text generalizing before with
  | nil => exact fun position inside => by cases inside <;> rfl
  | cons c rest ih =>
    intro position inside
    cases inside with
    | zero => simp
    | succ inside =>
      rw [stretches, ih]
      simp [Position.right, Nat.add_assoc, Nat.add_comm 1]

/-- What holds of the empty text, and of a text if it holds of what stands behind its first lexeme,
holds of all texts. -/
theorem induct_lexemes {P : List Char → Prop} (hnil : P [])
    (hcons : ∀ c rest, P (rest.drop (Lexeme.read c rest).2) → P (c :: rest)) (text : List Char) :
    P text := by
  induction h : text.length using Nat.strongRecOn generalizing text with
  | _ length ih =>
    cases text with
    | nil => exact hnil
    | cons c rest =>
      refine hcons c rest (ih _ ?_ _ rfl)
      rw [List.length_drop, ← h, List.length_cons]
      omega

section

variable {position : Position} {before text : List Char}

/-- The place behind a lexeme, when the characters behind its first have been counted. -/
def placeBehind (position : Position) (c : Char) (rest : List Char) : Position :=
  ⟨(placeAfter position (Lexeme.read c rest).1).line,
    (placeAfter position (Lexeme.read c rest).1).column +
      (rest.take (Lexeme.read c rest).2).length⟩

/-- The text of the lexeme at the head of a text. -/
def headText (c : Char) (rest : List Char) : List Char :=
  c :: rest.take (Lexeme.read c rest).2

theorem stretches_cons (before : List Char) (position : Position) (c : Char) (rest : List Char) :
    stretches before position 0 (c :: rest) = ⟨before, position, (Lexeme.read c rest).1⟩ ::
      stretches (before ++ headText c rest) (placeBehind position c rest) 0
        (rest.drop (Lexeme.read c rest).2) := by
  rw [stretches, stretches_inside, List.append_assoc, List.singleton_append]
  rfl

theorem append_headText (before : List Char) (c : Char) (rest : List Char) :
    before ++ headText c rest ++ rest.drop (Lexeme.read c rest).2 = before ++ c :: rest := by
  rw [headText, List.append_assoc, List.cons_append, List.take_append_drop]

/-- The place behind the first character of a lexeme. -/
theorem placeAfter_read (h : position = .behind before) (c : Char) (rest : List Char) :
    placeAfter position (Lexeme.read c rest).1 = .behind (before ++ [c]) := by
  by_cases hc : c = '\n'
  · subst hc
    rw [h, Position.behind_newline]
    rfl
  · rw [placeAfter_of_ne (Lexeme.read_ne_newline hc rest), h,
      Position.behind_append (List.mem_singleton.not.2 (Ne.symm hc))]
    rfl

/-- Behind a lexeme that keeps to its line the place is right if it was right before. -/
theorem placeBehind_of_inline {c : Char} {rest : List Char} (h : position = .behind before)
    (hinline : '\n' ∉ rest.take (Lexeme.read c rest).2) :
    placeBehind position c rest = .behind (before ++ headText c rest) := by
  have hsplit : before ++ headText c rest =
      before ++ [c] ++ rest.take (Lexeme.read c rest).2 := List.append_cons _ _ _
  rw [hsplit, Position.behind_append hinline, ← placeAfter_read h]
  rfl

/-- A line that was missed stays missed, and a lexeme that goes over a line end misses one. -/
theorem line_placeBehind_lt {c : Char} {rest : List Char}
    (h : position.line < (Position.behind before).line ∨
      position.line ≤ (Position.behind before).line ∧ '\n' ∈ rest.take (Lexeme.read c rest).2) :
    (placeBehind position c rest).line < (Position.behind (before ++ headText c rest)).line := by
  have hfirst : (placeBehind position c rest).line = position.line + [c].count '\n' := by
    show (placeAfter position (Lexeme.read c rest).1).line = _
    by_cases hc : c = '\n'
    · subst hc
      rfl
    · rw [placeAfter_of_ne (Lexeme.read_ne_newline hc rest),
        List.count_eq_zero.2 (List.mem_singleton.not.2 (Ne.symm hc))]
      rfl
  have hcount : (headText c rest).count '\n' =
      [c].count '\n' + (rest.take (Lexeme.read c rest).2).count '\n' := by
    rw [headText, ← List.count_append, List.singleton_append]
  rw [hfirst, Position.line_behind_append, hcount]
  rcases h with h | ⟨h, hmem⟩
  · omega
  · have hmissed := List.count_pos_iff.2 hmem
    omega

/-- The lexemes of a text stand behind what stands before the text, and behind each of them the text
goes on as it was read. -/
theorem of_mem_stretches (text : List Char) : ∀ {before : List Char} {position : Position},
    ∀ s ∈ stretches before position 0 text, before <+: s.before ∧
      ∃ c rest, before ++ text = s.before ++ c :: rest ∧
        s.placed.lexeme = (Lexeme.read c rest).1 := by
  induction text using induct_lexemes with
  | hnil => exact nofun
  | hcons c rest ih =>
    intro before position s hs
    rw [stretches_cons] at hs
    rcases List.mem_cons.1 hs with rfl | hs
    · exact ⟨List.prefix_rfl, c, rest, rfl, rfl⟩
    · obtain ⟨hbefore, hread⟩ := ih s hs
      rw [append_headText] at hread
      exact ⟨(List.prefix_append _ _).trans hbefore, hread⟩

/-- Once a line was missed, no lexeme is at its place. -/
theorem missed_of_line_lt (text : List Char) : ∀ {before : List Char} {position : Position},
    position.line < (Position.behind before).line →
      ∀ s ∈ stretches before position 0 text, s.placed.position ≠ .behind s.before := by
  induction text using induct_lexemes with
  | hnil => exact fun _ => nofun
  | hcons c rest ih =>
    intro before position h s hs
    rw [stretches_cons] at hs
    rcases List.mem_cons.1 hs with rfl | hs
    · intro heq
      exact Nat.ne_of_lt h (congrArg Position.line heq)
    · exact ih (line_placeBehind_lt (.inl h)) s hs

/-- The step and run lemma of places: a lexeme is at its place exactly if no lexeme before it goes
over a line end. -/
theorem position_eq_iff (text : List Char) : ∀ {before : List Char} {position : Position},
    position = .behind before → ∀ s ∈ stretches before position 0 text,
      (s.placed.position = .behind s.before ↔ ∀ s' ∈ stretches before position 0 text,
        .unknownEscape '\n' ∈ s'.placed.lexeme.faults → s.before <+: s'.before) := by
  induction text using induct_lexemes with
  | hnil => exact fun _ => nofun
  | hcons c rest ih =>
    intro before position h s hs
    rw [stretches_cons] at hs ⊢
    have hlater : ∀ s' ∈ stretches (before ++ headText c rest) (placeBehind position c rest) 0
        (rest.drop (Lexeme.read c rest).2), before ++ headText c rest <+: s'.before :=
      fun s' hs' => (of_mem_stretches _ s' hs').1
    rcases List.mem_cons.1 hs with rfl | hs
    · refine iff_of_true h (List.forall_mem_cons.2 ⟨fun _ => List.prefix_rfl, fun s' hs' _ => ?_⟩)
      exact (List.prefix_append _ _).trans (hlater s' hs')
    · rw [List.forall_mem_cons]
      have hbehind : ¬ s.before <+: before := by
        intro hprefix
        have hle := ((hlater s hs).trans hprefix).length_le
        rw [headText, List.length_append, List.length_cons] at hle
        omega
      by_cases htakes : .unknownEscape '\n' ∈ (Lexeme.read c rest).1.faults
      · have hmem := (Lexeme.newline_mem_iff c rest).2 htakes
        have hlt := line_placeBehind_lt (.inr ⟨Nat.le_of_eq (congrArg _ h), hmem⟩)
        exact iff_of_false (missed_of_line_lt _ hlt s hs) fun hall => hbehind (hall.1 htakes)
      · have hinline := mt (Lexeme.newline_mem_iff c rest).1 htakes
        rw [ih (placeBehind_of_inline h hinline) s hs]
        exact ⟨fun hall => ⟨fun htakes' => absurd htakes' htakes, hall⟩, fun hall => hall.2⟩

/-- Lexemes follow one another. -/
theorem pairwise_stretches (text : List Char) : ∀ {before : List Char} {position : Position},
    (stretches before position 0 text).Pairwise fun s s' => s.before <+: s'.before := by
  induction text using induct_lexemes with
  | hnil => exact .nil
  | hcons c rest ih =>
    intro before position
    rw [stretches_cons]
    refine .cons (fun s hs => ?_) ih
    exact (List.prefix_append _ _).trans (of_mem_stretches _ s hs).1

end

/-! ## Faults -/

/-- The faults of a text where they are reported, each with what stands before the lexeme that has
it. -/
def located (text : List Char) : List (List Char × ScanError) :=
  (stretches [] .start 0 text).flatMap fun s => s.placed.errors.map (s.before, ·)

theorem errors_eq (l : PlacedLexeme) : l.errors = l.lexeme.faults.map (⟨·, l.position⟩) := by
  obtain ⟨position, lexeme⟩ := l
  cases lexeme <;> rfl

theorem mem_located {text : List Char} {e : List Char × ScanError} :
    e ∈ located text ↔ ∃ s ∈ stretches [] .start 0 text, s.before = e.1 ∧
      s.placed.position = e.2.position ∧ e.2.fault ∈ s.placed.lexeme.faults := by
  constructor
  · intro h
    obtain ⟨s, hs, h⟩ := List.mem_flatMap.1 h
    rw [errors_eq] at h
    obtain ⟨error, herror, rfl⟩ := List.mem_map.1 h
    obtain ⟨fault, hfault, rfl⟩ := List.mem_map.1 herror
    exact ⟨s, hs, rfl, rfl, hfault⟩
  · obtain ⟨before, fault, position⟩ := e
    rintro ⟨s, hs, rfl, rfl, hfault⟩
    refine List.mem_flatMap.2 ⟨s, hs, List.mem_map_of_mem ?_⟩
    rw [errors_eq]
    exact List.mem_map.2 ⟨fault, hfault, rfl⟩

/-- The errors of a source that has no tokens are its faults. -/
theorem errors_of_scan {source : String} {errors : List ScanError}
    (h : scan source = .error errors) : errors = (located source.toList).map Prod.snd := by
  obtain ⟨place, hrow⟩ := lexemes_eq_stretches source.toList [] .start 0
  have hlocated : (located source.toList).map Prod.snd =
      (lexemes .start 0 source.toList).flatMap PlacedLexeme.errors := by
    have hsnd : ∀ s : Stretch, (s.placed.errors.map (s.before, ·)).map Prod.snd = s.placed.errors :=
      fun s => by rw [List.map_map]; exact List.map_id _
    rw [hrow, List.flatMap_append, located, List.map_flatMap, List.flatMap_map]
    simp only [hsnd]
    exact (List.append_nil _).symm
  unfold scan at h
  dsimp only at h
  split at h
  · cases h
  · rw [hlocated]
    exact (Except.error.inj h).symm

theorem pairwise_located (text : List Char) :
    (located text).Pairwise fun e e' => e.1 <+: e'.1 := by
  refine List.pairwise_flatMap.2 ⟨fun s _ => ?_, ?_⟩
  · exact List.pairwise_map.2 (List.pairwise_of_forall fun _ _ => List.prefix_rfl)
  · refine (pairwise_stretches text).imp fun hprefix e he e' he' => ?_
    obtain ⟨_, -, rfl⟩ := List.mem_map.1 he
    obtain ⟨_, -, rfl⟩ := List.mem_map.1 he'
    exact hprefix

/-- A source that has no tokens has all its faults for a result, in the order in which their lexemes
start. The lexeme of a fault is a character that starts no token, or a string. The place reported is
that of the lexeme exactly if no string before it has a backslash at the end of a line. -/
theorem faults_located {source : String} {errors : List ScanError}
    (h : scan source = .error errors) :
    errors = (located source.toList).map Prod.snd ∧
    (located source.toList).Pairwise (fun e e' => e.1 <+: e'.1) ∧
    ∀ e ∈ located source.toList,
      (∃ c rest, source.toList = e.1 ++ c :: rest ∧ e.2.fault.StartsWith c) ∧
      (e.2.position = .behind e.1 ↔ ∀ e' ∈ located source.toList,
        e'.2.fault = .unknownEscape '\n' → e.1 <+: e'.1) := by
  refine ⟨errors_of_scan h, pairwise_located _, fun e he => ?_⟩
  obtain ⟨s, hs, hbefore, hplace, hfault⟩ := mem_located.1 he
  obtain ⟨-, c, rest, htext, hread⟩ := of_mem_stretches source.toList s hs
  rw [← hbefore, ← hplace]
  refine ⟨⟨c, rest, htext, Lexeme.startsWith_of_mem_faults rest (hread ▸ hfault)⟩, ?_⟩
  rw [position_eq_iff source.toList rfl s hs]
  constructor
  · intro hall e' he' htakes
    obtain ⟨s', hs', hbefore', -, hfault'⟩ := mem_located.1 he'
    exact hbefore' ▸ hall s' hs' (htakes ▸ hfault')
  · intro hall s' hs' htakes
    exact hall (s'.before, ⟨.unknownEscape '\n', s'.placed.position⟩)
      (mem_located.2 ⟨s', hs', rfl, rfl, htakes⟩) rfl

/-- Of four faults the last stands behind a string with a backslash at the end of a line, and it
alone is not at its place. -/
theorem faults_located_four :
    scan "\"a\n@ \"\\\n\" @" = .error [⟨.unterminatedString, ⟨1, 1⟩⟩,
      ⟨.unexpectedCharacter '@', ⟨2, 1⟩⟩, ⟨.unknownEscape '\n', ⟨2, 3⟩⟩,
      ⟨.unexpectedCharacter '@', ⟨2, 8⟩⟩] ∧
    ∀ e ∈ located "\"a\n@ \"\\\n\" @".toList,
      e.2.position = .behind e.1 ↔ e.2.position ≠ ⟨2, 8⟩ := by
  have hscan : scan "\"a\n@ \"\\\n\" @" = .error [⟨.unterminatedString, ⟨1, 1⟩⟩,
      ⟨.unexpectedCharacter '@', ⟨2, 1⟩⟩, ⟨.unknownEscape '\n', ⟨2, 3⟩⟩,
      ⟨.unexpectedCharacter '@', ⟨2, 8⟩⟩] := rfl
  obtain ⟨-, -, hplaces⟩ := faults_located hscan
  refine ⟨hscan, fun e he => (hplaces e he).2.trans ?_⟩
  revert e
  decide

/-- A line end that a string takes in is not counted: the character behind the string stands on the
second line, in the third column, and is reported on the first. -/
theorem fault_misplaced :
    scan "\"\\\n\" @" = .error [⟨.unknownEscape '\n', ⟨1, 1⟩⟩, ⟨.unexpectedCharacter '@', ⟨1, 6⟩⟩] ∧
    Position.behind "\"\\\n\" ".toList = ⟨2, 3⟩ :=
  ⟨rfl, rfl⟩

end Token

end Scripting

import Scripting.Proofs.JoinedTrees

/-!
# Proofs: where statements may end

The scanner closes a line by a semicolon if its last token can end an expression. The parser knows
no lines: what it reads as an expression ends with whatever token its rules take last. The two
agree, because every rule takes last a token that can end an expression. So between an expression
and the end of the input there is always a semicolon, and a statement never lacks one there.
-/

namespace Scripting

/-! ## Streams that are closed -/

namespace Stream

variable {whole s : Stream} {taken : List Token}

/-- The end of the input is no token of the stream, and the last token of the stream cannot end an
expression. -/
structure Closed (whole : Stream) : Prop where
  inner : ∀ t ∈ whole.rest, t.kind ≠ .finish
  last : ∀ t ∈ whole.rest.getLast?, t.kind.endsExpression = false

theorem Closed.of_suffix (hclosed : whole.Closed) {rest : List Token} (h : rest <:+ whole.rest) :
    Closed ⟨rest, whole.finish⟩ := by
  refine ⟨fun t ht => hclosed.inner t (h.mem ht), fun t ht => hclosed.last t ?_⟩
  obtain ⟨front, hfront⟩ := h
  rw [← hfront, List.getLast?_append, ht]
  rfl

/-- Behind an expression there is a token that is not the end of the input. -/
theorem Closed.next_of_canEnd (hclosed : (s.prepend taken).Closed) (h : Token.CanEnd taken) :
    ∃ next more, s.rest = next :: more ∧ next.kind ≠ .finish := by
  cases hrest : s.rest with
  | nil =>
    obtain ⟨t, ht, hends⟩ := h
    have hlast : (taken ++ s.rest).getLast? = some t := by rwa [hrest, List.append_nil]
    exact absurd ((hclosed.last t hlast).symm.trans hends) Bool.false_ne_true
  | cons next more =>
    have hnext : next ∈ taken ++ s.rest := by simp [hrest]
    exact ⟨next, more, rfl, hclosed.inner next hnext⟩

end Stream

namespace Token

/-! ## What the scanner puts at the end -/

/-- The row of tokens before the end of the input ends with a token that ends no expression. `last`
is the token before the row on its line. -/
theorem layout_last {row : List PlacedLexeme} (hinside : Inside row) (place : Position) :
    ∀ last : Option Kind, ∃ front, layout last (row ++ [⟨place, .finish⟩]) =
        front ++ [⟨.finish, "", place⟩] ∧
      ∀ kind ∈ (front.getLast?.map Token.kind).or last, kind.endsExpression = false := by
  have hclosing : ∀ place last,
      ∀ kind ∈ ((closing place last).getLast?.map Token.kind).or last,
        kind.endsExpression = false := by
    intro place last kind hkind
    unfold closing at hkind
    split at hkind
    · cases hkind
      rfl
    · next hlast =>
      cases hkind
      exact Bool.eq_false_iff.2 hlast
  induction row with
  | nil => exact fun last => ⟨closing place last, rfl, hclosing place last⟩
  | cons l row ih =>
    intro last
    obtain ⟨hinner, hrow⟩ := List.forall_mem_cons.1 hinside
    obtain ⟨position, lexeme⟩ := l
    cases lexeme with
    | token kind text =>
      obtain ⟨front, hfront, hends⟩ := ih hrow (some kind)
      refine ⟨⟨kind, text, position⟩ :: front, congrArg _ hfront, fun k hk => hends k ?_⟩
      cases front with
      | nil => exact hk
      | cons t front => simpa [List.getLast?_cons] using hk
    | newline =>
      obtain ⟨front, hfront, hends⟩ := ih hrow none
      refine ⟨closing position last ++ front, ?_, fun k hk => ?_⟩
      · rw [List.append_assoc, ← hfront]
        rfl
      · cases front with
        | nil => exact hclosing position last k (by simpa using hk)
        | cons t front =>
          exact hends k (by simpa [List.getLast?_append, List.getLast?_cons] using hk)
    | blank | faulty => exact ih hrow last
    | finish => exact hinner.elim

/-- The tokens of a source before the end of the input are closed. -/
theorem closed_of_scan {source : String} {tokens : List Token} (h : scan source = .ok tokens) :
    (Stream.ofTokens tokens).Closed := by
  obtain ⟨row, place, front, hinside, hlayout, rfl, hkinds⟩ := layout_of_scan h
  obtain ⟨front', hend, hlast⟩ := layout_last hinside place none
  cases (List.append_inj' (hlayout.symm.trans hend) rfl).1
  rw [Stream.ofTokens_eq hkinds rfl]
  refine ⟨hkinds, fun t ht => hlast t.kind ?_⟩
  rw [Option.or_none]
  exact Option.mem_map_of_mem _ ht

end Token

/-- No other error has the wording of a separator that lacks at the end of the input. -/
theorem ParseError.of_message {e : ParseError} (h : e.message =
    e.position.report "Expect newline or ';' after expression, at end") :
    e.expectation = .separator ∧ e.found.kind = .finish := by
  unfold message Position.report at h
  rw [String.append_right_inj] at h
  have hchars := congrArg String.toList h
  rw [String.toList_append] at hchars
  by_cases hkind : e.found.kind = .finish
  · refine ⟨?_, hkind⟩
    rw [if_pos hkind] at hchars
    cases hexpectation : e.expectation with
    | separator => rfl
    | _ =>
      rw [hexpectation] at hchars
      exact absurd hchars (by decide)
  · rw [if_neg hkind] at hchars
    cases hexpectation : e.expectation
    all_goals
      rw [hexpectation] at hchars
      simp [Expectation.message] at hchars

namespace Node

/-- In the tokens of a source, every expression ends with a token that closes a line if it is the
last there, and another token follows before the end of the input. So parsing a source never fails
for the lack of a separator at the end of the input. -/
theorem separator_before_end {source : String} {tokens : List Token}
    (h : Token.scan source = .ok tokens) :
    (∀ fuel power rest node s, rest <:+ (Stream.ofTokens tokens).rest →
      expression fuel power ⟨rest, (Stream.ofTokens tokens).finish⟩ = .ok (node, s) →
        ∃ taken last next more, rest = taken ++ last :: next :: more ∧ s.rest = next :: more ∧
          last.kind.endsExpression = true ∧ next.kind ≠ .finish) ∧
    ∀ e, ofTokens tokens = .error (.error e) →
      e.message ≠ e.position.report "Expect newline or ';' after expression, at end" := by
  have hclosed := Token.closed_of_scan h
  constructor
  · intro fuel power rest node s hrest hread
    obtain ⟨taken, hs, hderives⟩ := derives_of_expression hread (Stream.kind_finish_ofTokens tokens)
    have hclosed' := hclosed.of_suffix hrest
    rw [hs] at hclosed'
    obtain ⟨next, more, hnext, hkind⟩ := hclosed'.next_of_canEnd hderives.ends
    obtain ⟨last, hlast, hends⟩ := hderives.ends
    obtain ⟨front, rfl⟩ := List.getLast?_eq_some_iff.1 hlast
    have hrest : rest = front ++ [last] ++ s.rest := congrArg Stream.rest hs
    refine ⟨front, last, next, more, ?_, hnext, hends, hkind⟩
    rw [hrest, hnext, List.append_assoc]
    rfl
  · intro e he hmessage
    obtain ⟨hseparator, hkind⟩ := ParseError.of_message hmessage
    obtain ⟨taken, s, hs, hends, hfound⟩ := (misses_of_ofTokens he).separator hseparator
    rw [hs] at hclosed
    obtain ⟨next, more, hnext, hne⟩ := hclosed.next_of_canEnd hends
    rw [hfound, Stream.head, hnext] at hkind
    exact hne hkind

/-- The last token of the source is a name in a block that is not closed: a semicolon stands behind
it, and it is the brace that lacks. -/
theorem separator_before_end_open : ∃ tokens e,
    Token.scan "if a \x7b\n  b # c" = .ok tokens ∧ ofTokens tokens = .error (.error e) ∧
      e.message = "2:8: Expect '\x7d' after block, at end" ∧
      e.message ≠ e.position.report "Expect newline or ';' after expression, at end" := by
  have hscan : Token.scan "if a \x7b\n  b # c" = .ok
      [⟨.ifWord, "if", ⟨1, 1⟩⟩, ⟨.identifier, "a", ⟨1, 4⟩⟩, ⟨.leftBrace, "\x7b", ⟨1, 6⟩⟩,
        ⟨.identifier, "b", ⟨2, 3⟩⟩, ⟨.semicolon, ";", ⟨2, 8⟩⟩, ⟨.finish, "", ⟨2, 8⟩⟩] := rfl
  obtain ⟨-, hnever⟩ := separator_before_end hscan
  exact ⟨_, ⟨.blockEnd, ⟨.finish, "", ⟨2, 8⟩⟩⟩, hscan, rfl, by decide, hnever _ rfl⟩

end Node

end Scripting

import Scripting.Node.Parser
import Scripting.Proofs.Inversion

/-!
# Proofs: what a reader takes and leaves

A reader takes the first tokens of its stream and gives a result, or it fails at a token. Both are
said by one predicate, `ParseM.Takes`: the tokens taken and the result satisfy a postcondition, and
what the reader misses, it misses in the stream. The predicate keeps in mind which tokens stand in
front of the stream, since a separator is only wanted behind a token that can end an expression.
There is a rule for each way to put readers together.
-/

namespace Scripting

/-! ## Rows of tokens -/

namespace Token

/-- The last of the tokens can end an expression. -/
def CanEnd (taken : List Token) : Prop :=
  ∃ t ∈ taken.getLast?, t.kind.endsExpression = true

theorem canEnd_singleton {t : Token} (h : t.kind.endsExpression = true) : CanEnd [t] :=
  ⟨t, rfl, h⟩

theorem CanEnd.ne_nil {taken : List Token} (h : CanEnd taken) : taken ≠ [] := by
  rintro rfl
  obtain ⟨t, ht, -⟩ := h
  cases ht

theorem CanEnd.append_left {taken : List Token} (h : CanEnd taken) (before : List Token) :
    CanEnd (before ++ taken) := by
  obtain ⟨t, ht, hends⟩ := h
  refine ⟨t, ?_, hends⟩
  rw [List.getLast?_append, ht]
  rfl

theorem CanEnd.cons {taken : List Token} (h : CanEnd taken) (t : Token) : CanEnd (t :: taken) :=
  h.append_left [t]

theorem CanEnd.append {before taken : List Token} (h : CanEnd before)
    (h' : taken ≠ [] → CanEnd taken) : CanEnd (before ++ taken) := by
  by_cases hnil : taken = []
  · rwa [hnil, List.append_nil]
  · exact (h' hnil).append_left before

end Token

/-! ## Streams -/

namespace Stream

/-- The stream with the tokens in front, as it was before they were taken. -/
def prepend (taken : List Token) (s : Stream) : Stream :=
  { s with rest := taken ++ s.rest }

/-- The token stands in the stream, perhaps at its end. -/
def Has (s : Stream) (t : Token) : Prop :=
  t ∈ s.rest ∨ t = s.finish

variable {s : Stream} {t : Token} {kind : Kind}

theorem prepend_append (taken more : List Token) (s : Stream) :
    s.prepend (taken ++ more) = (s.prepend more).prepend taken := by
  rw [prepend, List.append_assoc]
  rfl

theorem Has.prepend (h : s.Has t) (taken : List Token) : (s.prepend taken).Has t :=
  h.imp_left (List.mem_append_right taken)

theorem has_head (s : Stream) : s.Has s.head := by
  obtain ⟨_ | ⟨t, rest⟩, finish⟩ := s
  · exact .inr rfl
  · exact .inl List.mem_cons_self

/-- The first of the tokens that are taken is the next token of the stream. -/
theorem head?_eq_some_head_prepend {taken : List Token} (h : taken ≠ []) (s : Stream) :
    taken.head? = some (s.prepend taken).head := by
  obtain ⟨t, rest, rfl⟩ := List.exists_cons_of_ne_nil h
  rfl

/-- A stream that has a token next is that token with the others behind it. -/
theorem eq_prepend_of_startsWith (h : s.startsWith kind = true) :
    ∃ t, t.kind = kind ∧ s.head = t ∧ s = s.tail.prepend [t] := by
  obtain ⟨_ | ⟨t, rest⟩, finish⟩ := s
  · cases h
  · exact ⟨t, by simpa [startsWith] using h, rfl, rfl⟩

theorem kind_finish_ofTokens (tokens : List Token) :
    (Stream.ofTokens tokens).finish.kind = .finish := by
  unfold ofTokens
  cases hfind : tokens.find? (·.kind = .finish) with
  | none => rfl
  | some finish => simpa using List.find?_some hfind

end Stream

/-- The error says what the stream lacks: the token found is one of the stream, and a separator
lacks only behind a token that can end an expression. -/
structure ParseError.Misses (e : ParseError) (s : Stream) : Prop where
  found : s.Has e.found
  separator : e.expectation = .separator →
    ∃ taken s', s = Stream.prepend taken s' ∧ Token.CanEnd taken ∧ e.found = s'.head

namespace ParseM

/-! ## Readers -/

section

variable {α β : Type} {m : ParseM α} {f : α → ParseM β}

theorem ok_of_bind {s s₂ : Stream} {b : β} (h : (m >>= f) s = .ok (b, s₂)) :
    ∃ a s₁, m s = .ok (a, s₁) ∧ f a s₁ = .ok (b, s₂) := by
  obtain ⟨⟨a, s₁⟩, hm, hf⟩ := bind_eq_ok_iff.1 h
  exact ⟨a, s₁, hm, hf⟩

theorem bind_of_ok {s s₁ : Stream} {a : α} (h : m s = .ok (a, s₁)) : (m >>= f) s = f a s₁ := by
  change (m s >>= fun p => f p.1 p.2) = _
  rw [h]
  rfl

theorem bind_of_error {s : Stream} {e : Stop ParseError} (h : m s = .error e) :
    (m >>= f) s = .error e := by
  change (m s >>= fun p => f p.1 p.2) = _
  rw [h]
  rfl

end

theorem next_eq (s : Stream) : next s = .ok (s.head, s.tail) :=
  rfl

theorem accept_eq (kind : Kind) (s : Stream) : accept kind s =
    if s.startsWith kind then .ok (true, s.tail) else .ok (false, s) := by
  change (if s.startsWith kind then _ else _ : ParseM Bool) s = _
  split <;> rfl

theorem expect_eq (kind : Kind) (expectation : Expectation) (s : Stream) :
    expect kind expectation s = if s.startsWith kind then .ok (s.head, s.tail)
      else .error (.error ⟨expectation, s.head⟩) := by
  change (if s.startsWith kind then _ else _ : ParseM Token) s = _
  split <;> rfl

/-! ## Tokens taken and streams left -/

/-- Given the stream, in front of which other tokens stand, the reader takes tokens that satisfy
`post` together with its result, or it misses something in the stream. -/
def Takes {α : Type} (before : List Token) (m : ParseM α) (s : Stream)
    (post : List Token → α → Prop) : Prop :=
  s.finish.kind = .finish → match m s with
    | .ok (a, s') => ∃ taken, s = s'.prepend taken ∧ post taken a
    | .error (.error e) => e.Misses (s.prepend before)
    | .error .outOfFuel => True

section

variable {α β : Type} {before : List Token} {m m' : ParseM α} {f : α → ParseM β} {s : Stream}
  {post : List Token → α → Prop} {post' : List Token → β → Prop}

theorem Takes.ok (h : Takes before m s post) (hfinish : s.finish.kind = .finish) {a : α}
    {s' : Stream} (hm : m s = .ok (a, s')) : ∃ taken, s = s'.prepend taken ∧ post taken a := by
  have hresult := h hfinish
  rwa [hm] at hresult

theorem Takes.misses (h : Takes before m s post) (hfinish : s.finish.kind = .finish)
    {e : ParseError} (hm : m s = .error (.error e)) : e.Misses (s.prepend before) := by
  have hresult := h hfinish
  rwa [hm] at hresult

theorem takes_of_ok {a : α} {s' : Stream} (taken : List Token) (hm : m s = .ok (a, s'))
    (hs : s = s'.prepend taken) (hpost : post taken a) : Takes before m s post := by
  intro _
  rw [hm]
  exact ⟨taken, hs, hpost⟩

theorem takes_of_error {e : ParseError} (hm : m s = .error (.error e))
    (h : e.Misses (s.prepend before)) : Takes before m s post := by
  intro _
  rwa [hm]

/-- Readers one after the other: the second goes on behind the tokens of the first. -/
theorem Takes.bind (h : Takes before m s post) (hf : ∀ taken a s', s = s'.prepend taken →
    post taken a → Takes (before ++ taken) (f a) s' fun more b => post' (taken ++ more) b) :
    Takes before (m >>= f) s post' := by
  intro hfinish
  cases hm : m s with
  | ok result =>
    obtain ⟨a, s'⟩ := result
    obtain ⟨taken, rfl, hpost⟩ := h.ok hfinish hm
    have hresult := hf taken a s' rfl hpost hfinish
    rw [bind_of_ok hm]
    cases hfa : f a s' with
    | ok result =>
      rw [hfa] at hresult
      obtain ⟨more, rfl, hpost'⟩ := hresult
      exact ⟨taken ++ more, (Stream.prepend_append ..).symm, hpost'⟩
    | error stop =>
      rw [hfa] at hresult
      cases stop with
      | error e => rwa [Stream.prepend_append] at hresult
      | outOfFuel => trivial
  | error stop =>
    rw [bind_of_error hm]
    cases stop with
    | error e => exact h.misses hfinish hm
    | outOfFuel => trivial

/-- The result of a reader may be made into another one. -/
theorem Takes.map (h : Takes before m s post) {g : α → β} (hg : ∀ taken a (s' : Stream),
    s = s'.prepend taken → post taken a → post' taken (g a)) :
    Takes before (do return g (← m)) s post' := by
  refine h.bind fun taken a s' hs ha _ => ⟨[], rfl, ?_⟩
  have htaken : post' (taken ++ []) (g a) := by
    rw [List.append_nil]
    exact hg taken a s' hs ha
  exact htaken

theorem Takes.mono (h : Takes before m s post) {post' : List Token → α → Prop}
    (hpost : ∀ taken a, post taken a → post' taken a) : Takes before m s post' := by
  intro hfinish
  have hresult := h hfinish
  cases hm : m s with
  | ok result =>
    rw [hm] at hresult
    exact hresult.imp fun taken ht => ⟨ht.1, hpost _ _ ht.2⟩
  | error stop =>
    cases stop with
    | error e => exact h.misses hfinish hm
    | outOfFuel => trivial

theorem Takes.discard (h : Takes before m s post) :
    Takes before (discard m) s fun taken _ => ∃ a, post taken a :=
  h.map (g := fun _ => PUnit.unit) fun _ a _ _ ha => ⟨a, ha⟩

theorem takes_pure {a : α} (h : post [] a) : Takes before (pure a) s post :=
  takes_of_ok [] rfl rfl h

theorem takes_exhausted : Takes before exhausted s post :=
  fun _ => trivial

/-- A failure names a token in front of the stream, or one of the stream. -/
theorem takes_fail {expectation : Expectation} {t : Token} (hne : expectation ≠ .separator)
    (h : (s.prepend before).Has t) : Takes before (fail expectation t) s post :=
  takes_of_error rfl ⟨h, fun hseparator => absurd hseparator hne⟩

/-! ### Looking at the next token -/

theorem takes_get {f : Stream → ParseM α} (h : Takes before (f s) s post) :
    Takes before (get >>= f) s post :=
  h

theorem takes_peek {f : Token → ParseM α} (h : Takes before (f s.head) s post) :
    Takes before (peek >>= f) s post :=
  h

theorem takes_startsWith {kind : Kind} {f : Bool → ParseM α}
    (h : Takes before (f (s.startsWith kind)) s post) :
    Takes before (startsWith kind >>= f) s post :=
  h

/-! ### Taking the next token -/

/-- At the end nothing is taken, and the end is found. -/
theorem takes_next {f : Token → ParseM α} (h : ∀ (t : Token) (s' : Stream), s = s'.prepend [t] →
      Takes (before ++ [t]) (f t) s' fun more => post (t :: more))
    (hend : s.rest = [] → s.finish.kind = .finish → Takes before (f s.finish) s post) :
    Takes before (next >>= f) s post := by
  intro hfinish
  obtain ⟨_ | ⟨t, rest⟩, finish⟩ := s
  · exact hend rfl hfinish hfinish
  · have htoken : Takes before next ⟨t :: rest, finish⟩ fun taken t' => taken = [t'] :=
      takes_of_ok [t] (next_eq _) rfl rfl
    refine htoken.bind (fun taken t' s' hs ht => ?_) hfinish
    cases ht
    exact h t' s' hs

/-- A reader that goes on in two ways. -/
theorem takes_accept {kind : Kind} (h : ∀ (t : Token) (s' : Stream), t.kind = kind →
      s = s'.prepend [t] → Takes (before ++ [t]) m s' fun more => post (t :: more))
    (h' : Takes before m' s post) : Takes before (do if ← accept kind then m else m') s post := by
  by_cases hstarts : s.startsWith kind = true
  · obtain ⟨t, hkind, -, hs⟩ := Stream.eq_prepend_of_startsWith hstarts
    have haccept : Takes before (accept kind) s fun taken more => taken = [t] ∧ more = true :=
      takes_of_ok [t] (by rw [accept_eq, if_pos hstarts]) hs ⟨rfl, rfl⟩
    refine haccept.bind fun taken more s' hs hmore => ?_
    obtain ⟨rfl, rfl⟩ := hmore
    exact h t s' hkind hs
  · intro hfinish
    rw [bind_of_ok (show accept kind s = .ok (false, s) by rw [accept_eq, if_neg hstarts])]
    exact h' hfinish

/-- The token that is expected is taken. A separator is expected behind what can end an
expression. -/
theorem takes_expect {kind : Kind} {expectation : Expectation}
    (h : expectation = .separator → Token.CanEnd before) :
    Takes before (expect kind expectation) s fun taken t => t.kind = kind ∧ taken = [t] := by
  by_cases hstarts : s.startsWith kind = true
  · obtain ⟨t, hkind, hhead, hs⟩ := Stream.eq_prepend_of_startsWith hstarts
    exact takes_of_ok [t] (by rw [expect_eq, if_pos hstarts, hhead]) hs ⟨hkind, rfl⟩
  · refine takes_of_error (by rw [expect_eq, if_neg hstarts]) ⟨s.has_head.prepend before, ?_⟩
    exact fun hseparator => ⟨before, s, rfl, h hseparator, rfl⟩

theorem takes_skipSemicolons : Takes before skipSemicolons s fun taken _ =>
    ∀ t ∈ taken, t.kind = .semicolon := by
  refine takes_of_ok (s.rest.takeWhile (·.kind = .semicolon)) rfl ?_ fun t ht => ?_
  · rw [Stream.prepend, List.takeWhile_append_dropWhile]
  · exact of_decide_eq_true (List.all_eq_true.1 List.all_takeWhile t ht)

end

end ParseM

end Scripting

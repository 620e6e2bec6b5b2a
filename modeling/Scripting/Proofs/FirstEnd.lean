import Scripting.Node.Cursor
import Scripting.Proofs.JoinedTrees

/-!
# Proofs: the parser stops at the first end

A parser with an index into the whole row finds what the parser finds on the list of tokens before
the first end, and it always finds something. As long as there is an end at or behind the index, the
readers see an end or a token before it. They never pass an end, so the index stays inside the row
and what is behind the first end is never seen.

The bounds are never reached either. Each item of a list takes a token, and so does each step into
an expression, unless it fails at the end of the input. So a bound above the number of tokens before
the end is enough for every reader, and any two such bounds give the same.
-/

namespace Scripting

namespace Stream

theorem ofTokens_cons_finish {t : Token} {rest : List Token} (h : t.kind = .finish) :
    ofTokens (t :: rest) = ⟨[], t⟩ := by
  simp [ofTokens, h]

/-- Behind a token other than an end, a row goes on in the same way if it has an end at all. -/
theorem ofTokens_cons {t : Token} {rest : List Token} (h : t.kind ≠ .finish)
    (hends : ∃ t ∈ rest, t.kind = .finish) :
    ofTokens (t :: rest) = ⟨t :: (ofTokens rest).rest, (ofTokens rest).finish⟩ := by
  obtain ⟨finish, hfinish⟩ : ∃ finish, rest.find? (·.kind = .finish) = some finish :=
    Option.isSome_iff_exists.1 (List.find?_isSome.2 (by simpa using hends))
  simp [ofTokens, h, hfinish]

/-- What is behind an end makes no difference. -/
theorem ofTokens_append {before : List Token} (after : List Token) {finish : Token}
    (h : finish.kind = .finish) : ofTokens (before ++ finish :: after) =
      ofTokens (before ++ [finish]) := by
  induction before with
  | nil => rw [List.nil_append, List.nil_append, ofTokens_cons_finish h, ofTokens_cons_finish h]
  | cons t before ih =>
    rw [List.cons_append, List.cons_append]
    by_cases ht : t.kind = .finish
    · rw [ofTokens_cons_finish ht, ofTokens_cons_finish ht]
    · rw [ofTokens_cons ht ⟨finish, by simp, h⟩, ofTokens_cons ht ⟨finish, by simp, h⟩, ih]

/-- A row without an end goes on to its last token. -/
theorem ofTokens_of_forall {tokens : List Token} (h : ∀ t ∈ tokens, t.kind ≠ .finish) :
    ofTokens tokens =
      ⟨tokens, ⟨.finish, "", (tokens.getLast?.map Token.position).getD .nowhere⟩⟩ := by
  have hrest : tokens.takeWhile (·.kind ≠ .finish) = tokens := by
    rw [← List.append_nil tokens, List.takeWhile_append_of_pos fun t ht => decide_eq_true (h t ht)]
    rfl
  have hfinish : tokens.find? (·.kind = .finish) = none :=
    List.find?_eq_none.2 fun t ht hkind => h t ht (of_decide_eq_true hkind)
  rw [ofTokens, hrest, hfinish, Option.getD_none]

theorem length_rest_ofTokens_le (tokens : List Token) :
    (ofTokens tokens).rest.length ≤ tokens.length :=
  (List.takeWhile_sublist _).length_le

end Stream

namespace ParseM

/-- Taking all semicolons is to take the first one, if there is one, and then all others. -/
theorem skipSemicolons_eq : skipSemicolons =
    (do if ← accept .semicolon then skipSemicolons : ParseM Unit) := by
  funext s
  change _ = accept .semicolon s >>= fun x => (if x.1 then skipSemicolons else pure ()) x.2
  rw [accept_eq]
  obtain ⟨_ | ⟨t, rest⟩, finish⟩ := s
  · rfl
  · have hstarts : (Stream.mk (t :: rest) finish).startsWith .semicolon =
        decide (t.kind = .semicolon) := by simp [Stream.startsWith]
    change Except.ok ((), Stream.mk (List.dropWhile _ (t :: rest)) finish) = _
    rw [List.dropWhile_cons, hstarts]
    split <;> rfl

end ParseM

namespace Cursor

/-! ## Rows that end -/

/-- There is an end at or behind the index. -/
def Ends (c : Cursor) : Prop :=
  ∃ t ∈ c.row.drop c.index, t.kind = .finish

/-- What a reader is to find: the tokens from the index to the first end. -/
def stream (c : Cursor) : Stream :=
  Stream.ofTokens (c.row.drop c.index)

/-- The number of tokens before the end. -/
def ahead (c : Cursor) : Nat :=
  c.stream.rest.length

/-- The index one further. -/
def moved (c : Cursor) : Cursor :=
  { c with index := c.index + 1 }

variable {c : Cursor}

/-- The token at the index is the end, or a token before it with the others behind it. -/
theorem Ends.cases (h : c.Ends) : ∃ t, c.row[c.index]? = some t ∧
    (t.kind = .finish ∧ c.stream = ⟨[], t⟩ ∨
      t.kind ≠ .finish ∧ c.moved.Ends ∧
        c.stream = ⟨t :: c.moved.stream.rest, c.moved.stream.finish⟩) := by
  obtain ⟨row, index⟩ := c
  obtain ⟨t', ht', hkind⟩ := h
  obtain ⟨t, rest, hdrop⟩ := List.exists_cons_of_ne_nil (List.ne_nil_of_mem ht')
  have hmoved : row.drop (index + 1) = rest := by
    rw [← List.drop_drop, hdrop, List.drop_one, List.tail_cons]
  refine ⟨t, by rw [← List.head?_drop, hdrop, List.head?_cons], ?_⟩
  simp only [stream, Ends, moved, hdrop, hmoved] at ht' ⊢
  by_cases ht : t.kind = .finish
  · exact .inl ⟨ht, Stream.ofTokens_cons_finish ht⟩
  · have hends : ∃ t ∈ rest, t.kind = .finish :=
      ⟨t', (List.mem_cons.1 ht').resolve_left fun heq => ht (heq ▸ hkind), hkind⟩
    exact .inr ⟨ht, hends, Stream.ofTokens_cons ht hends⟩

/-- A row of tokens ends, and what is to be found are the tokens before the first end. -/
theorem ends_ofTokens (tokens : List Token) :
    (ofTokens tokens).Ends ∧ (ofTokens tokens).stream = Stream.ofTokens tokens := by
  unfold ofTokens stream Ends
  rw [List.drop_zero]
  split
  · next hlast =>
    obtain ⟨finish, hfinish, hkind⟩ := (Option.any_eq_true _ _).1 hlast
    exact ⟨⟨finish, List.mem_of_getLast? hfinish, of_decide_eq_true hkind⟩, rfl⟩
  · refine ⟨⟨_, List.mem_append_right _ List.mem_cons_self, rfl⟩, ?_⟩
    by_cases hends : ∃ t ∈ tokens, t.kind = .finish
    · obtain ⟨t, ht, hkind⟩ := hends
      obtain ⟨before, after, rfl⟩ := List.append_of_mem ht
      rw [List.append_assoc, List.cons_append, Stream.ofTokens_append _ hkind,
        ← Stream.ofTokens_append after hkind]
    · have hkinds : ∀ t ∈ tokens, t.kind ≠ .finish := fun t ht hkind => hends ⟨t, ht, hkind⟩
      rw [Stream.ofTokens_eq hkinds rfl, Stream.ofTokens_of_forall hkinds]

/-! ## Readers that agree -/

variable {α β : Type} {r : CursorM α} {g : α → CursorM β} {m : ParseM α} {f : α → ParseM β}
  {k : Nat}

/-- From the cursor on, both readers give the same, and neither is stopped by a bound or by the
limits of the row. At least `k` tokens are taken. -/
def Follows (c : Cursor) (k : Nat) (r : CursorM α) (m : ParseM α) : Prop :=
  (∃ a c', r c = .ok (a, c') ∧ m c.stream = .ok (a, c'.stream) ∧ c'.Ends ∧
      c'.ahead + k ≤ c.ahead) ∨
    ∃ e : ParseError, r c = .error (.stop (.error e)) ∧ m c.stream = .error (.error e)

theorem Follows.weaken (h : c.Follows k r m) {k' : Nat} (hk : k' ≤ k) : c.Follows k' r m := by
  obtain ⟨a, c', hr, hm, hends, hleft⟩ | h := h
  · exact .inl ⟨a, c', hr, hm, hends, by omega⟩
  · exact .inr h

/-- A result, and what is read after it with `d` tokens less before it. -/
theorem Follows.step {a : α} {c' : Cursor} {d : Nat} (hr : r c = .ok (a, c'))
    (hm : m c.stream = .ok (a, c'.stream)) (hahead : c'.ahead + d ≤ c.ahead)
    (h : c'.Follows (k - d) (g a) (f a)) : c.Follows k (r >>= g) (m >>= f) := by
  obtain ⟨b, c'', hg, hf, hends, hahead'⟩ | ⟨e, hg, hf⟩ := h
  · exact .inl ⟨b, c'', bind_eq_ok_iff.2 ⟨_, hr, hg⟩, bind_eq_ok_iff.2 ⟨_, hm, hf⟩, hends, by omega⟩
  · exact .inr ⟨e, bind_eq_error_iff.2 (.inr ⟨_, hr, hg⟩),
      bind_eq_error_iff.2 (.inr ⟨_, hm, hf⟩)⟩

theorem Follows.bind {k' : Nat} (h : c.Follows k r m)
    (hg : ∀ (a : α) (c' : Cursor), c'.Ends → c'.ahead + k ≤ c.ahead →
      c'.Follows (k' - k) (g a) (f a)) : c.Follows k' (r >>= g) (m >>= f) := by
  obtain ⟨a, c', hr, hm, hends, hahead⟩ | ⟨e, hr, hm⟩ := h
  · exact .step hr hm hahead (hg a c' hends hahead)
  · exact .inr ⟨e, bind_eq_error_iff.2 (.inl hr), bind_eq_error_iff.2 (.inl hm)⟩

theorem Follows.discard (h : c.Follows k r m) : c.Follows k (discard r) (discard m) := by
  have hbind : c.Follows k (r >>= fun _ => pure PUnit.unit) (m >>= fun _ => pure PUnit.unit) :=
    h.bind fun _ c' hc' _ => Nat.sub_self k ▸ .inl ⟨_, c', rfl, rfl, hc', Nat.le_refl _⟩
  exact hbind

theorem follows_pure (hc : c.Ends) (a : α) : c.Follows 0 (pure a) (pure a) :=
  .inl ⟨a, c, rfl, rfl, hc, Nat.le_refl _⟩

theorem follows_fail (expectation : Expectation) (found : Token) :
    c.Follows k (fail expectation found : CursorM α) (ParseM.fail expectation found) :=
  .inr ⟨⟨expectation, found⟩, rfl, rfl⟩

theorem bind_eq {a : α} {c' : Cursor} (hr : r c = .ok (a, c')) : (r >>= g) c = g a c' := by
  change r c >>= _ = _
  rw [hr]
  rfl

/-- A look at the row changes nothing. -/
theorem Follows.look {m : ParseM β} {a : α} (hr : r c = .ok (a, c)) (h : c.Follows k (g a) m) :
    c.Follows k (r >>= g) m := by
  unfold Follows
  rwa [bind_eq hr]

/-- The stream of a cursor may be looked at. -/
theorem Follows.get {f : Stream → ParseM α} (h : c.Follows k r (f c.stream)) :
    c.Follows k r (get >>= f) :=
  h

/-! ## Primitive readers -/

theorem peek_eq (hc : c.Ends) : peek c = .ok (c.stream.head, c) := by
  obtain ⟨t, hlookup, hstream⟩ := hc.cases
  have hhead : c.stream.head = t := by
    obtain ⟨-, hstream⟩ | ⟨-, -, hstream⟩ := hstream <;> rw [hstream] <;> rfl
  have hget : (get : CursorM Cursor) c = .ok (c, c) := rfl
  rw [peek, bind_eq hget, hlookup, hhead]
  rfl

theorem atEnd_eq (hc : c.Ends) : atEnd c = .ok (c.stream.rest.isEmpty, c) := by
  have hhead : decide (c.stream.head.kind = .finish) = c.stream.rest.isEmpty := by
    obtain ⟨t, -, ⟨hkind, hstream⟩ | ⟨hkind, -, hstream⟩⟩ := hc.cases
    · rw [hstream]
      exact decide_eq_true hkind
    · rw [hstream]
      exact decide_eq_false hkind
  rw [← hhead]
  exact bind_eq_ok_iff.2 ⟨_, peek_eq hc, rfl⟩

theorem check_eq (hc : c.Ends) (kind : Kind) :
    check kind c = .ok (c.stream.startsWith kind, c) := by
  have hhead : (c.stream.head.kind ≠ .finish && c.stream.head.kind = kind : Bool) =
      c.stream.startsWith kind := by
    obtain ⟨t, -, ⟨hkind, hstream⟩ | ⟨hkind, -, hstream⟩⟩ := hc.cases
    · rw [hstream]
      simp [Stream.head, Stream.startsWith, hkind]
    · rw [hstream]
      simp [Stream.head, Stream.startsWith, hkind]
  rw [← hhead]
  exact bind_eq_ok_iff.2 ⟨_, peek_eq hc, rfl⟩

theorem closes_eq (hc : c.Ends) (closer : Option Kind) :
    closes closer c = .ok (closer.any c.stream.startsWith, c) := by
  cases closer with
  | none => rfl
  | some kind => exact check_eq hc kind

/-- An end is found and stays; another token is taken. -/
theorem next_cases (hc : c.Ends) :
    c.stream.head.kind = .finish ∧ next c = .ok (c.stream.head, c) ∧ c.stream = c.stream.tail ∨
      c.stream.head.kind ≠ .finish ∧ next c = .ok (c.stream.head, c.moved) ∧ c.moved.Ends ∧
        c.moved.stream = c.stream.tail ∧ c.moved.ahead + 1 = c.ahead := by
  have hnext : next c = if c.stream.head.kind ≠ .finish then .ok (c.stream.head, c.moved)
      else .ok (c.stream.head, c) := by
    rw [next, bind_eq (peek_eq hc)]
    split <;> rfl
  obtain ⟨t, -, ⟨hkind, hstream⟩ | ⟨hkind, hends, hstream⟩⟩ := hc.cases
  · have hhead : c.stream.head.kind = .finish := by rwa [hstream]
    refine .inl ⟨hhead, hnext.trans (if_neg (not_not_intro hhead)), ?_⟩
    rw [hstream]
    rfl
  · have hhead : c.stream.head.kind ≠ .finish := by rwa [hstream]
    refine .inr ⟨hhead, hnext.trans (if_pos hhead), hends, ?_, ?_⟩
    · rw [hstream]
      rfl
    · rw [ahead, ahead, hstream]
      rfl

theorem kind_head_ne_finish (hc : c.Ends) {kind : Kind} (h : c.stream.startsWith kind = true) :
    c.stream.head.kind ≠ .finish := by
  obtain ⟨t, -, ⟨-, hstream⟩ | ⟨hkind, -, hstream⟩⟩ := hc.cases
  · rw [hstream] at h
    cases h
  · rwa [hstream]

/-- A token of a kind that is there is taken. -/
theorem next_eq (hc : c.Ends) {kind : Kind} (h : c.stream.startsWith kind = true) :
    next c = .ok (c.stream.head, c.moved) ∧ c.moved.Ends ∧ c.moved.stream = c.stream.tail ∧
      c.moved.ahead + 1 = c.ahead :=
  ((next_cases hc).resolve_left fun hfinish => kind_head_ne_finish hc h hfinish.1).2

theorem accept_eq (hc : c.Ends) (kind : Kind) : accept kind c =
    if c.stream.startsWith kind then .ok (true, c.moved) else .ok (false, c) := by
  rw [accept, bind_eq (check_eq hc kind)]
  split
  · next hkind =>
    obtain ⟨hnext, -⟩ := next_eq hc hkind
    change (next >>= fun _ => pure PUnit.unit) c >>= _ = _
    rw [bind_eq hnext]
    rfl
  · rfl

theorem follows_accept {r' : CursorM α} {m' : ParseM α} (hc : c.Ends) {kind : Kind}
    (h : ∀ c' : Cursor, c'.Ends → c'.ahead + 1 ≤ c.ahead → c'.Follows (k - 1) r m)
    (h' : c.Follows k r' m') : c.Follows k (do if ← accept kind then r else r')
      (do if ← ParseM.accept kind then m else m') := by
  have hr := accept_eq hc kind
  have hm := ParseM.accept_eq kind c.stream
  by_cases hkind : c.stream.startsWith kind = true
  · obtain ⟨-, hends, hstream, hahead⟩ := next_eq hc hkind
    rw [if_pos hkind] at hr hm
    exact .step hr (hstream ▸ hm) (Nat.le_of_eq hahead) (h _ hends (Nat.le_of_eq hahead))
  · rw [if_neg hkind] at hr hm
    exact .step (d := 0) hr hm (Nat.le_refl _) h'

theorem follows_expect (hc : c.Ends) (kind : Kind) (expectation : Expectation) :
    c.Follows 1 (expect kind expectation) (ParseM.expect kind expectation) := by
  refine .look (check_eq hc kind) ?_
  have hm := ParseM.expect_eq kind expectation c.stream
  by_cases hkind : c.stream.startsWith kind = true
  · obtain ⟨hnext, hends, hstream, hahead⟩ := next_eq hc hkind
    rw [if_pos hkind] at hm ⊢
    exact .inl ⟨_, _, hnext, hstream ▸ hm, hends, Nat.le_of_eq hahead⟩
  · rw [if_neg hkind] at hm ⊢
    exact .look (peek_eq hc) (.inr ⟨_, rfl, hm⟩)

/-- Semicolons are taken one by one. -/
theorem follows_skipSemicolons {fuel : Nat} : ∀ {c : Cursor}, c.Ends → c.ahead < fuel →
    c.Follows 0 (skipSemicolons fuel) ParseM.skipSemicolons := by
  induction fuel with
  | zero => exact fun _ h => absurd h (Nat.not_lt_zero _)
  | succ fuel ih =>
    intro c hc hahead
    rw [ParseM.skipSemicolons_eq]
    exact follows_accept hc (fun c' hc' hahead' => ih hc' (by omega)) (follows_pure hc ())

/-! ## Readers of trees -/

section

variable {expr' : Nat → CursorM Node} {expr : Nat → ParseM Node} {n : Nat}
  (hexpr : ∀ power {c : Cursor}, c.Ends → c.ahead ≤ n → c.Follows 1 (expr' power) (expr power))
include hexpr

theorem follows_statements (closer : Option Kind) {fuel : Nat} : ∀ {fuel' : Nat} {c : Cursor},
    c.Ends → c.ahead ≤ n → c.ahead < fuel → c.ahead < fuel' →
      c.Follows 0 (statements expr' closer fuel') (Node.statements expr closer fuel) := by
  induction fuel with
  | zero => exact fun _ _ h => absurd h (Nat.not_lt_zero _)
  | succ fuel ih =>
    intro fuel' c hc hn hfuel hfuel'
    obtain _ | fuel' := fuel'
    · exact absurd hfuel' (Nat.not_lt_zero _)
    unfold statements Node.statements
    refine (follows_skipSemicolons hc hfuel').bind fun _ c₁ hc₁ h₁ => ?_
    refine .look (closes_eq hc₁ closer) (.look (atEnd_eq hc₁) (.get ?_))
    split
    · exact follows_pure hc₁ []
    · refine (hexpr 0 hc₁ (by omega)).bind fun statement c₂ hc₂ h₂ => ?_
      refine .look (closes_eq hc₂ closer) (.get ?_)
      have hrest : ∀ c' : Cursor, c'.Ends → c'.ahead ≤ c₂.ahead → c'.Follows 0
          (do return statement :: (← statements expr' closer fuel'))
          (do return statement :: (← Node.statements expr closer fuel)) :=
        fun c' hc' h' => (ih hc' (by omega) (by omega) (by omega)).bind
          fun rest c'' hc'' _ => follows_pure hc'' _
      split
      · exact (follows_expect hc₂ _ _).discard.bind fun _ c₃ hc₃ h₃ => hrest c₃ hc₃ (by omega)
      · exact hrest c₂ hc₂ (Nat.le_refl _)

theorem follows_items {fuel : Nat} : ∀ {fuel' : Nat} {c : Cursor}, c.Ends → c.ahead ≤ n →
    c.ahead < fuel → c.ahead < fuel' → c.Follows 1 (items expr' fuel') (Node.items expr fuel) := by
  induction fuel with
  | zero => exact fun _ _ h => absurd h (Nat.not_lt_zero _)
  | succ fuel ih =>
    intro fuel' c hc hn hfuel hfuel'
    obtain _ | fuel' := fuel'
    · exact absurd hfuel' (Nat.not_lt_zero _)
    unfold items Node.items
    refine (hexpr _ hc hn).bind fun item c₁ hc₁ h₁ => follows_accept hc₁ (fun c₂ hc₂ h₂ => ?_) ?_
    · refine ((ih hc₂ (by omega) (by omega) (by omega)).weaken (Nat.zero_le 1)).bind ?_
      exact fun rest c₃ hc₃ _ => follows_pure hc₃ _
    · exact follows_pure hc₁ _

theorem follows_enclosed (closer : Kind) (expectation : Expectation) {fuel fuel' : Nat} {c : Cursor}
    (hc : c.Ends) (hn : c.ahead ≤ n) (hfuel : c.ahead < fuel) (hfuel' : c.ahead < fuel') :
    c.Follows 1 (enclosed expr' closer expectation fuel')
      (Node.enclosed expr closer expectation fuel) := by
  unfold enclosed Node.enclosed
  have hclosed : ∀ (children : List Node) (c' : Cursor), c'.Ends → c'.Follows 1
      (do discard (expect closer expectation); return children)
      (do discard (ParseM.expect closer expectation); return children) :=
    fun children c' hc' => (follows_expect hc' _ _).discard.bind
      fun _ c'' hc'' _ => follows_pure hc'' _
  refine .look (check_eq hc closer) (.get ?_)
  split
  · exact hclosed [] c hc
  · exact (follows_items hexpr hc hn hfuel hfuel').bind fun children c₁ hc₁ _ =>
      (hclosed children c₁ hc₁).weaken (Nat.zero_le 1)

theorem follows_block {fuel fuel' : Nat} {c : Cursor} (hc : c.Ends) (hn : c.ahead ≤ n)
    (hfuel : c.ahead < fuel) (hfuel' : c.ahead < fuel') :
    c.Follows 1 (block expr' fuel') (Node.block expr fuel) := by
  unfold block Node.block
  refine (follows_expect hc _ _).discard.bind fun _ c₁ hc₁ h₁ => ?_
  refine .look (peek_eq hc₁) (.get ?_)
  refine (follows_statements hexpr _ hc₁ (by omega) (by omega) (by omega)).bind
    fun children c₂ hc₂ _ => ?_
  refine ((follows_expect hc₂ _ _).discard.weaken (Nat.zero_le 1)).bind ?_
  exact fun _ c₃ hc₃ _ => follows_pure hc₃ _

theorem follows_alternatives {depth depth' : Nat} {fuel : Nat} : ∀ {fuel' : Nat} {c : Cursor},
    c.Ends → c.ahead ≤ n → c.ahead < depth → c.ahead < depth' → c.ahead < fuel → c.ahead < fuel' →
      c.Follows 0 (alternatives expr' depth' fuel') (Node.alternatives expr depth fuel) := by
  induction fuel with
  | zero => exact fun _ _ _ _ h => absurd h (Nat.not_lt_zero _)
  | succ fuel ih =>
    intro fuel' c hc hn hdepth hdepth' hfuel hfuel'
    obtain _ | fuel' := fuel'
    · exact absurd hfuel' (Nat.not_lt_zero _)
    unfold alternatives Node.alternatives
    refine follows_accept hc (fun c₁ hc₁ h₁ => ?_) (follows_pure hc _)
    refine follows_accept hc₁ (fun c₂ hc₂ h₂ => ?_) ?_
    · refine (hexpr 0 hc₂ (by omega)).bind fun condition c₃ hc₃ h₃ => ?_
      refine (follows_block hexpr hc₃ (by omega) (by omega) (by omega)).bind
        fun body c₄ hc₄ h₄ => ?_
      refine (ih hc₄ (by omega) (by omega) (by omega) (by omega) (by omega)).bind ?_
      exact fun rest c₅ hc₅ _ => follows_pure hc₅ _
    · refine (follows_block hexpr hc₁ (by omega) (by omega) (by omega)).bind ?_
      exact fun body c₂ hc₂ _ => follows_pure hc₂ _

theorem follows_function {fuel fuel' : Nat} {c : Cursor} (hc : c.Ends) (hn : c.ahead ≤ n)
    (hfuel : c.ahead < fuel) (hfuel' : c.ahead < fuel') :
    c.Follows 0 (function expr' fuel') (Node.function expr fuel) := by
  unfold function Node.function
  refine (follows_expect hc _ _).bind fun bracket c₁ hc₁ h₁ => ?_
  refine (follows_enclosed hexpr _ _ hc₁ (by omega) (by omega) (by omega)).bind
    fun parameters c₂ hc₂ h₂ => ?_
  refine .look (peek_eq hc₂) (.get ?_)
  have hrest : ∀ (channels : List Node) (c' : Cursor), c'.Ends → c'.ahead ≤ c₂.ahead →
      c'.Follows 0
        (do
          let body ← block expr' fuel'
          return [⟨.leftParen, "params", bracket.position, parameters⟩,
            ⟨.leftBracket, "channels", c₂.stream.head.position, channels⟩, body])
        (do
          let body ← Node.block expr fuel
          return [⟨.leftParen, "params", bracket.position, parameters⟩,
            ⟨.leftBracket, "channels", c₂.stream.head.position, channels⟩, body]) :=
    fun channels c' hc' h' =>
      (follows_block hexpr hc' (by omega) (by omega) (by omega)).bind
        fun body c'' hc'' _ => follows_pure hc'' _
  refine follows_accept hc₂ (fun c₃ hc₃ h₃ => ?_) (hrest [] c₂ hc₂ (Nat.le_refl _))
  refine (follows_enclosed hexpr _ _ hc₃ (by omega) (by omega) (by omega)).bind ?_
  exact fun channels c₄ hc₄ h₄ => hrest channels c₄ hc₄ (by omega)

theorem follows_start (token : Token) {fuel fuel' : Nat} {c : Cursor} (hc : c.Ends)
    (hn : c.ahead ≤ n) (hfuel : c.ahead < fuel) (hfuel' : c.ahead < fuel') :
    c.Follows 0 (start expr' fuel' token) (Node.start expr fuel token) := by
  obtain ⟨kind, lexeme, position⟩ := token
  unfold start Node.start
  cases kind with
  | identifier | int | float | string | trueWord | falseWord | nilWord | breakWord
  | continueWord => exact follows_pure hc _
  | not | minus => exact (hexpr _ hc hn).bind fun operand c₁ hc₁ _ => follows_pure hc₁ _
  | leftParen =>
    refine follows_accept hc (fun c₁ hc₁ _ => follows_pure hc₁ _) ?_
    refine (hexpr 0 hc hn).bind fun inner c₁ hc₁ _ => ?_
    exact (follows_expect hc₁ _ _).discard.bind fun _ c₂ hc₂ _ => follows_pure hc₂ _
  | returnWord =>
    refine .look (peek_eq hc) (.get ?_)
    split
    · exact follows_pure hc _
    · exact (hexpr _ hc hn).bind fun operand c₁ hc₁ _ => follows_pure hc₁ _
  | externWord =>
    exact (follows_items hexpr hc hn hfuel hfuel').bind fun _ c₁ hc₁ _ => follows_pure hc₁ _
  | funcWord =>
    exact (follows_function hexpr hc hn hfuel hfuel').bind fun _ c₁ hc₁ _ => follows_pure hc₁ _
  | ifWord =>
    refine (hexpr 0 hc hn).bind fun condition c₁ hc₁ h₁ => ?_
    refine (follows_block hexpr hc₁ (by omega) (by omega) (by omega)).bind
      fun body c₂ hc₂ h₂ => ?_
    refine (follows_alternatives hexpr hc₂ (by omega) (by omega) (by omega) (by omega)
      (by omega)).bind ?_
    exact fun rest c₃ hc₃ _ => follows_pure hc₃ _
  | whileWord =>
    refine (hexpr 0 hc hn).bind fun condition c₁ hc₁ h₁ => ?_
    refine (follows_block hexpr hc₁ (by omega) (by omega) (by omega)).bind ?_
    exact fun body c₂ hc₂ _ => follows_pure hc₂ _
  | _ => exact follows_fail _ _

omit hexpr in
/-- Nothing begins at the end of the input. -/
theorem follows_start_finish {token : Token} (h : token.kind = .finish) {fuel fuel' : Nat}
    {c : Cursor} : c.Follows k (start expr' fuel' token) (Node.start expr fuel token) := by
  obtain ⟨kind, lexeme, position⟩ := token
  cases h
  exact follows_fail _ _

theorem follows_extend (token : Token) (left : Node) {fuel fuel' : Nat} {c : Cursor} (hc : c.Ends)
    (hn : c.ahead ≤ n) (hfuel : c.ahead < fuel) (hfuel' : c.ahead < fuel') :
    c.Follows 0 (extend expr' fuel' token left) (Node.extend expr fuel token left) := by
  obtain ⟨kind, lexeme, position⟩ := token
  unfold extend Node.extend
  cases kind with
  | leftParen =>
    exact (follows_enclosed hexpr _ _ hc hn hfuel hfuel').bind
      fun arguments c₁ hc₁ _ => follows_pure hc₁ _
  | leftBracket =>
    refine (hexpr 0 hc hn).bind fun index c₁ hc₁ _ => ?_
    exact (follows_expect hc₁ _ _).discard.bind fun _ c₂ hc₂ _ => follows_pure hc₂ _
  | period => exact (follows_expect hc _ _).bind fun field c₁ hc₁ _ => follows_pure hc₁ _
  | _ => exact (hexpr _ hc hn).bind fun operand c₁ hc₁ _ => follows_pure hc₁ _

theorem follows_operators {depth depth' power : Nat} {fuel : Nat} :
    ∀ {fuel' : Nat} {left : Node} {c : Cursor}, c.Ends → c.ahead ≤ n → c.ahead < depth →
      c.ahead < depth' → c.ahead < fuel → c.ahead < fuel' →
      c.Follows 0 (operators expr' depth' power fuel' left)
        (Node.operators expr depth power fuel left) := by
  induction fuel with
  | zero => exact fun _ _ _ _ h => absurd h (Nat.not_lt_zero _)
  | succ fuel ih =>
    intro fuel' left c hc hn hdepth hdepth' hfuel hfuel'
    obtain _ | fuel' := fuel'
    · exact absurd hfuel' (Nat.not_lt_zero _)
    unfold operators Node.operators
    refine .look (peek_eq hc) (.get ?_)
    split
    · next hpower =>
      obtain ⟨hkind, -⟩ | ⟨-, hnext, hends, hstream, hahead⟩ := next_cases hc
      · rw [hkind] at hpower
        exact absurd hpower (Nat.not_lt_zero power)
      · refine .step (d := 1) hnext (hstream ▸ ParseM.next_eq c.stream) (by omega) ?_
        refine (follows_extend hexpr _ left hends (by omega) (by omega) (by omega)).bind ?_
        exact fun extended c₁ hc₁ h₁ =>
          ih hc₁ (by omega) (by omega) (by omega) (by omega) (by omega)
    · exact follows_pure hc left

end

/-- An expression takes a token, unless there is none. -/
theorem follows_expression {fuel : Nat} : ∀ {fuel' : Nat} (power : Nat) {c : Cursor}, c.Ends →
    c.ahead < fuel → c.ahead < fuel' →
      c.Follows 1 (expression fuel' power) (Node.expression fuel power) := by
  induction fuel with
  | zero => exact fun _ _ _ h => absurd h (Nat.not_lt_zero _)
  | succ fuel ih =>
    intro fuel' power c hc hfuel hfuel'
    obtain _ | fuel' := fuel'
    · exact absurd hfuel' (Nat.not_lt_zero _)
    unfold expression Node.expression
    obtain ⟨hkind, hnext, hstream⟩ | ⟨-, hnext, hends, hstream, hahead⟩ := next_cases hc
    · refine .step (d := 0) hnext ?_ (Nat.le_refl _) ?_
      · rw [ParseM.next_eq, ← hstream]
      · exact (follows_start_finish (k := c.ahead + 1) hkind).bind
          fun _ c' _ h => absurd h (by omega)
    · refine .step (d := 1) hnext (hstream ▸ ParseM.next_eq c.stream) (by omega) ?_
      have hexpr : ∀ power {c' : Cursor}, c'.Ends → c'.ahead ≤ c.moved.ahead →
          c'.Follows 1 (expression fuel' power) (Node.expression fuel power) :=
        fun power c' hc' h' => ih power hc' (by omega) (by omega)
      refine (follows_start hexpr _ hends (Nat.le_refl _) (by omega) (by omega)).bind ?_
      exact fun left c₁ hc₁ h₁ =>
        follows_operators hexpr hc₁ (by omega) (by omega) (by omega) (by omega) (by omega)

theorem follows_program {fuel fuel' : Nat} {c : Cursor} (hc : c.Ends) (hfuel : c.ahead < fuel)
    (hfuel' : c.ahead < fuel') : c.Follows 0 (program fuel') (Node.program fuel) := by
  unfold program Node.program
  refine .look (peek_eq hc) (.get ?_)
  have hexpr : ∀ power {c' : Cursor}, c'.Ends → c'.ahead ≤ c.ahead →
      c'.Follows 1 (expression fuel' power) (Node.expression fuel power) :=
    fun power c' hc' h' => follows_expression power hc' (by omega) (by omega)
  refine (follows_statements hexpr none hc (Nat.le_refl _) hfuel hfuel').bind ?_
  exact fun children c₁ hc₁ _ => follows_pure hc₁ _

/-! ## Whole rows -/

/-- A row has a tree or an error, whatever the bounds, and it has it along the row as well. -/
theorem parse_cases {tokens : List Token} {fuel fuel' : Nat} (hfuel : tokens.length < fuel)
    (hfuel' : tokens.length < fuel') :
    (∃ root, parse fuel' tokens = .ok root ∧
        (Node.program fuel).run' (Stream.ofTokens tokens) = .ok root) ∨
      ∃ e : ParseError, parse fuel' tokens = .error (.stop (.error e)) ∧
        (Node.program fuel).run' (Stream.ofTokens tokens) = .error (.error e) := by
  obtain ⟨hends, hstream⟩ := ends_ofTokens tokens
  have hahead : (ofTokens tokens).ahead ≤ tokens.length := by
    rw [ahead, hstream]
    exact Stream.length_rest_ofTokens_le tokens
  have hfollows : (ofTokens tokens).Follows 0 (program fuel') (Node.program fuel) :=
    follows_program hends (by omega) (by omega)
  unfold parse StateT.run'
  rw [← hstream]
  obtain ⟨root, c', hr, hm, -, -⟩ | ⟨e, hr, hm⟩ := hfollows
  · exact .inl ⟨root, by rw [hr]; rfl, by rw [hm]; rfl⟩
  · exact .inr ⟨e, by rw [hr]; rfl, by rw [hm]; rfl⟩

/-- Any bound above the number of tokens is enough. -/
theorem run_program {tokens : List Token} {fuel : Nat} (h : tokens.length < fuel) :
    (Node.program fuel).run' (Stream.ofTokens tokens) = Node.ofTokens tokens := by
  have hshort : tokens.length < tokens.length + 2 := by omega
  obtain ⟨root, hparse, hrun⟩ | ⟨e, hparse, hrun⟩ := parse_cases h hshort <;>
    obtain ⟨root', hparse', hrun'⟩ | ⟨e', hparse', hrun'⟩ := parse_cases hshort hshort <;>
    cases hparse.symm.trans hparse' <;> exact hrun.trans hrun'.symm

/-- The parser ends on every row of tokens, with a tree or with an error. The same rules on the
whole row, with an index that is checked wherever it is used, give the same tree or error under
every bound above the number of tokens, so the index is never outside the row. What is behind an
end, and so behind the first one, makes no difference. -/
theorem parse_ends_at_first_finish (tokens : List Token) :
    ((∃ root, Node.ofTokens tokens = .ok root) ∨
      ∃ e : ParseError, Node.ofTokens tokens = .error (.error e)) ∧
    (∀ fuel, tokens.length < fuel →
      parse fuel tokens = (Node.ofTokens tokens).mapError Halt.stop) ∧
    ∀ (before after : List Token) (finish : Token), finish.kind = .finish →
      tokens = before ++ finish :: after →
        Node.ofTokens tokens = Node.ofTokens (before ++ [finish]) := by
  have hshort : tokens.length < tokens.length + 2 := by omega
  refine ⟨?_, fun fuel hfuel => ?_, fun before after finish hkind htokens => ?_⟩
  · obtain ⟨root, -, hrun⟩ | ⟨e, -, hrun⟩ := parse_cases hshort hshort
    · exact .inl ⟨root, hrun⟩
    · exact .inr ⟨e, hrun⟩
  · rw [← run_program hshort]
    obtain ⟨root, hparse, hrun⟩ | ⟨e, hparse, hrun⟩ := parse_cases hshort hfuel
    · rw [hparse, hrun]
      rfl
    · rw [hparse, hrun]
      rfl
  · have hcut : (before ++ [finish]).length < tokens.length + 2 := by
      rw [htokens, List.length_append, List.length_append]
      simp only [List.length_cons, List.length_nil]
      omega
    rw [← run_program hshort, ← run_program hcut, htokens, Stream.ofTokens_append after hkind]

/-- A group that is open at the first end. The error is about that end, whatever is behind it. -/
theorem parse_ends_at_first_finish_open :
    parse 4 [⟨.leftParen, "(", ⟨1, 1⟩⟩, ⟨.finish, "", ⟨1, 2⟩⟩, ⟨.rightParen, ")", ⟨1, 3⟩⟩] =
        .error (.stop (.error ⟨.moreInput, ⟨.finish, "", ⟨1, 2⟩⟩⟩)) ∧
      Node.ofTokens [⟨.leftParen, "(", ⟨1, 1⟩⟩, ⟨.finish, "", ⟨1, 2⟩⟩,
          ⟨.rightParen, ")", ⟨1, 3⟩⟩] =
        Node.ofTokens [⟨.leftParen, "(", ⟨1, 1⟩⟩, ⟨.finish, "", ⟨1, 2⟩⟩] := by
  obtain ⟨-, hparse, hcut⟩ := parse_ends_at_first_finish [⟨.leftParen, "(", ⟨1, 1⟩⟩,
    ⟨.finish, "", ⟨1, 2⟩⟩, ⟨.rightParen, ")", ⟨1, 3⟩⟩]
  exact ⟨hparse 4 (by decide), hcut [⟨.leftParen, "(", ⟨1, 1⟩⟩] [⟨.rightParen, ")", ⟨1, 3⟩⟩] _
    rfl rfl⟩

end Cursor

end Scripting

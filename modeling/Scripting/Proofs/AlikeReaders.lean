import Scripting.Node.Parser
import Scripting.Proofs.JoinedTokens
import Scripting.Proofs.Shapes

/-!
# Proofs: readers on alike streams

Two streams are alike if the tokens of the first are those that the second begins with, up to their
places. A reader that leaves tokens of the first stream reads the same from both, up to places, and
a larger bound changes nothing. If the second stream has no more tokens than the first, the reader
may also come to the end.

Nothing comes behind the end, so a reader that starts there ends there. That is why a reader that
leaves tokens has never been at the end on its way, where the streams differ.
-/

namespace Scripting

/-! ## Trees without places -/

namespace Node

mutual

/-- The tree without places. -/
def erased : Node → Node
  | ⟨kind, literal, _, children⟩ => ⟨kind, literal, .nowhere, erasedAll children⟩

/-- Several trees without places. -/
def erasedAll : List Node → List Node
  | [] => []
  | node :: rest => erased node :: erasedAll rest

end

@[simp] theorem erasedAll_eq (nodes : List Node) : erasedAll nodes = nodes.map erased := by
  induction nodes with
  | nil => rfl
  | cons node rest ih => rw [erasedAll, ih, List.map_cons]

theorem erased_mk (kind : Kind) (literal : String) (position : Position) (children : List Node) :
    erased ⟨kind, literal, position, children⟩ =
      ⟨kind, literal, .nowhere, children.map erased⟩ := by
  rw [erased, erasedAll_eq]

theorem erased_eq_iff {kind kind' : Kind} {literal literal' : String}
    {position position' : Position} {children children' : List Node} :
    erased ⟨kind, literal, position, children⟩ = erased ⟨kind', literal', position', children'⟩ ↔
      kind = kind' ∧ literal = literal' ∧ children.map erased = children'.map erased := by
  simp [erased_mk]

end Node

/-! ## Alike streams -/

namespace Stream

/-- The tokens of the first stream are those that the second begins with, up to their places, and
the second goes on with `more`. If that has no tokens, the ends agree too. -/
structure Alike (s more s' : Stream) : Prop where
  rest : ∃ front, s'.rest = front ++ more.rest ∧ s.rest.map Token.erased = front.map Token.erased
  finish : s'.finish = more.finish
  ends : more.rest = [] → s.finish.erased = more.finish.erased

/-- There are tokens left, or there is nothing more in the other stream. -/
def Open (s more : Stream) : Prop :=
  s.rest ≠ [] ∨ more.rest = []

variable {more s s' : Stream}

/-- Alike streams are both at the end, or begin with alike tokens. -/
theorem Alike.cases (h : s.Alike more s') (hopen : s.Open more) :
    (s.rest = [] ∧ s'.rest = [] ∧ more.rest = [] ∧ s.finish.erased = s'.finish.erased) ∨
      ∃ t rest t' front, s.rest = t :: rest ∧ s'.rest = t' :: (front ++ more.rest) ∧
        t.erased = t'.erased ∧ rest.map Token.erased = front.map Token.erased := by
  obtain ⟨front, hfront, hrest⟩ := h.rest
  cases hs : s.rest with
  | nil =>
    rw [hs] at hrest
    have hmore : more.rest = [] := hopen.resolve_left fun h => h hs
    rw [List.map_eq_nil_iff.1 hrest.symm, hmore] at hfront
    refine Or.inl ⟨rfl, hfront, hmore, ?_⟩
    rw [h.ends hmore, h.finish]
  | cons t rest =>
    rw [hs] at hrest
    obtain ⟨t', front', rfl, ht, hfront'⟩ := List.map_eq_cons_iff.1 hrest.symm
    exact Or.inr ⟨t, rest, t', front', rfl, hfront, ht.symm, hfront'.symm⟩

theorem kind_of_erased {t t' : Token} (h : t.erased = t'.erased) : t.kind = t'.kind :=
  (Token.mk.inj h).1

theorem Alike.head (h : s.Alike more s') (hopen : s.Open more) :
    s.head.erased = s'.head.erased := by
  unfold Stream.head
  obtain ⟨hs, hs', -, hfinish⟩ | ⟨t, rest, t', front, hs, hs', ht, -⟩ := h.cases hopen
  · rw [hs, hs']
    exact hfinish
  · rw [hs, hs']
    exact ht

theorem Alike.tail (h : s.Alike more s') (hopen : s.Open more) : s.tail.Alike more s'.tail := by
  unfold Stream.tail
  obtain ⟨hs, hs', hmore, -⟩ | ⟨t, rest, t', front, hs, hs', -, hrest⟩ := h.cases hopen
  · rw [hs, hs']
    exact ⟨⟨[], hmore.symm, rfl⟩, h.finish, h.ends⟩
  · rw [hs, hs']
    exact ⟨⟨front, rfl, hrest⟩, h.finish, h.ends⟩

theorem Alike.startsWith (h : s.Alike more s') (hopen : s.Open more) (kind : Kind) :
    s.startsWith kind = s'.startsWith kind := by
  unfold Stream.startsWith
  obtain ⟨hs, hs', -, -⟩ | ⟨t, rest, t', front, hs, hs', ht, -⟩ := h.cases hopen
  · rw [hs, hs']
  · simp [hs, hs', kind_of_erased ht]

theorem Alike.isEmpty (h : s.Alike more s') (hopen : s.Open more) :
    s.rest.isEmpty = s'.rest.isEmpty := by
  obtain ⟨hs, hs', -, -⟩ | ⟨t, rest, t', front, hs, hs', -, -⟩ := h.cases hopen
  · rw [hs, hs']
  · rw [hs, hs']
    rfl

/-- The stream without the semicolons that come next. -/
def skipped (s : Stream) : Stream :=
  { s with rest := s.rest.dropWhile (·.kind = .semicolon) }

theorem dropWhile_erased {rest front : List Token}
    (h : rest.map Token.erased = front.map Token.erased) :
    (rest.dropWhile (·.kind = .semicolon)).map Token.erased =
      (front.dropWhile (·.kind = .semicolon)).map Token.erased := by
  induction rest generalizing front with
  | nil => rw [List.map_eq_nil_iff.1 h.symm]
  | cons t rest ih =>
    obtain ⟨t', front', rfl, ht, hfront⟩ := List.map_eq_cons_iff.1 h.symm
    rw [List.dropWhile_cons, List.dropWhile_cons, kind_of_erased ht]
    split
    · exact ih hfront.symm
    · exact h

theorem Alike.skipped (h : s.Alike more s') (hopen : s.skipped.Open more) :
    s.skipped.Alike more s'.skipped := by
  obtain ⟨front, hfront, hrest⟩ := h.rest
  have hdropped := dropWhile_erased hrest
  refine ⟨⟨front.dropWhile (·.kind = .semicolon), ?_, hdropped⟩, h.finish, h.ends⟩
  show s'.rest.dropWhile (·.kind = .semicolon) = _
  rw [hfront, List.dropWhile_append]
  split
  · next hempty =>
    have hnone : front.dropWhile (·.kind = .semicolon) = [] := List.isEmpty_iff.1 hempty
    rw [hnone] at hdropped
    have hmore : more.rest = [] := hopen.resolve_left fun h => h (List.map_eq_nil_iff.1 hdropped)
    rw [hnone, hmore]
    rfl
  · rfl

/-- If the first stream has only semicolons left, the second goes on with what comes behind them. -/
theorem Alike.skipped_eq (h : s.Alike more s') (hs : s.skipped.rest = []) :
    s'.skipped = more.skipped := by
  obtain ⟨front, hfront, hrest⟩ := h.rest
  have hdropped := dropWhile_erased hrest
  have hs : s.rest.dropWhile (·.kind = .semicolon) = [] := hs
  rw [hs] at hdropped
  have hnone : front.dropWhile (·.kind = .semicolon) = [] := List.map_eq_nil_iff.1 hdropped.symm
  have hrest' : s'.rest.dropWhile (·.kind = .semicolon) =
      more.rest.dropWhile (·.kind = .semicolon) := by
    rw [hfront, List.dropWhile_append, hnone]
    rfl
  unfold Stream.skipped
  rw [hrest', h.finish]

end Stream

/-! ## Readers -/

namespace ParseM

/-- The second reader reads the same from alike streams as the first, if the first leaves the stream
open. `er` takes the places out of what is read. -/
structure Reads (more : Stream) {α γ : Type} (er : α → γ) (m m' : ParseM α) : Prop where
  shrinks : ∀ {s a s₁}, m s = .ok (a, s₁) → s₁.rest.length ≤ s.rest.length
  alike : ∀ {s s' a s₁}, s.Alike more s' → m s = .ok (a, s₁) → s₁.Open more →
    ∃ b s₁', m' s' = .ok (b, s₁') ∧ s₁.Alike more s₁' ∧ er a = er b

section

variable {more : Stream} {α β γ δ : Type} {er : α → γ} {er' : β → δ} {m m' : ParseM α}
  {f f' : α → ParseM β}

/-- A reader that leaves the stream open has found it open. -/
theorem Reads.open_before (h : Reads more er m m') {s s₁ : Stream} {a : α}
    (hm : m s = .ok (a, s₁)) (hopen : s₁.Open more) : s.Open more := by
  refine hopen.imp_left fun hrest hs => hrest (List.eq_nil_of_length_eq_zero ?_)
  have hshrinks := h.shrinks hm
  rw [hs] at hshrinks
  exact Nat.le_zero.1 hshrinks

theorem Reads.bind (h : Reads more er m m')
    (hf : ∀ a b, er a = er b → Reads more er' (f a) (f' b)) :
    Reads more er' (m >>= f) (m' >>= f') := by
  constructor
  · intro s c s₂ hc
    obtain ⟨a, s₁, ha, hc⟩ := ok_of_bind hc
    exact Nat.le_trans ((hf a a rfl).shrinks hc) (h.shrinks ha)
  · intro s s' c s₂ hs hc hopen
    obtain ⟨a, s₁, ha, hc⟩ := ok_of_bind hc
    obtain ⟨b, s₁', hb, hs₁, hab⟩ := h.alike hs ha ((hf a a rfl).open_before hc hopen)
    obtain ⟨d, s₂', hd, hs₂, hcd⟩ := (hf a b hab).alike hs₁ hc hopen
    refine ⟨d, s₂', ?_, hs₂, hcd⟩
    exact bind_eq_ok_iff.2 ⟨(b, s₁'), hb, hd⟩

theorem reads_pure {a b : α} (h : er a = er b) : Reads more er (pure a) (pure b) := by
  constructor
  · intro s a' s₁ ha
    cases ha
    exact Nat.le_refl _
  · intro s s' a' s₁ hs ha _
    cases ha
    exact ⟨b, s', rfl, hs, h⟩

theorem Reads.discard (h : Reads more er m m') :
    Reads more (id : Unit → Unit) (discard m) (discard m') := by
  show Reads more id (m >>= fun _ => pure ()) (m' >>= fun _ => pure ())
  exact h.bind fun _ _ _ => reads_pure rfl

theorem reads_error {e : Stream → Stop ParseError} :
    Reads more er (fun s => .error (e s) : ParseM α) m' :=
  ⟨nofun, fun _ h => nomatch h⟩

theorem reads_fail {expectation : Expectation} {found : Token} :
    Reads more er (fail expectation found) m' :=
  reads_error

theorem reads_exhausted : Reads more er exhausted m' :=
  reads_error

/-- A step that always succeeds. -/
theorem reads_step {f : Stream → α} {g : Stream → Stream} (hm : ∀ s, m s = .ok (f s, g s))
    (hshrinks : ∀ s, (g s).rest.length ≤ s.rest.length)
    (halike : ∀ s s', s.Alike more s' → (g s).Open more →
      er (f s) = er (f s') ∧ (g s).Alike more (g s')) : Reads more er m m := by
  constructor
  · intro s a s₁ ha
    rw [hm] at ha
    cases ha
    exact hshrinks s
  · intro s s' a s₁ hs ha hopen
    rw [hm] at ha
    cases ha
    obtain ⟨her, hg⟩ := halike s s' hs hopen
    exact ⟨_, _, hm s', hg, her⟩

/-- A choice that depends on what comes next. -/
theorem Reads.choose {g : Stream → Bool} {n n' : ParseM α}
    (hg : ∀ s s', s.Alike more s' → s.Open more → g s = g s') (hyes : Reads more er m m')
    (hno : Reads more er n n') :
    Reads more er (get >>= fun s => if g s then m else n)
      (get >>= fun s => if g s then m' else n') := by
  constructor
  · intro s a s₁ ha
    obtain ⟨_, _, hget, ha⟩ := ok_of_bind ha
    cases hget
    split at ha
    · exact hyes.shrinks ha
    · exact hno.shrinks ha
  · intro s s' a s₁ hs ha hopen
    obtain ⟨_, _, hget, ha⟩ := ok_of_bind ha
    cases hget
    split at ha
    · next htest =>
      obtain ⟨b, s₁', hb, hs₁, hab⟩ := hyes.alike hs ha hopen
      refine ⟨b, s₁', ?_, hs₁, hab⟩
      show (if g s' then m' else n') s' = .ok (b, s₁')
      rw [← hg s s' hs (hyes.open_before ha hopen), if_pos htest]
      exact hb
    · next htest =>
      obtain ⟨b, s₁', hb, hs₁, hab⟩ := hno.alike hs ha hopen
      refine ⟨b, s₁', ?_, hs₁, hab⟩
      show (if g s' then m' else n') s' = .ok (b, s₁')
      rw [← hg s s' hs (hno.open_before ha hopen), if_neg htest]
      exact hb

theorem Reads.ite {test : Bool} {n n' : ParseM α} (hyes : Reads more er m m')
    (hno : Reads more er n n') :
    Reads more er (if test then m else n) (if test then m' else n') := by
  cases test
  · exact hno
  · exact hyes

end

section

variable {more : Stream}

theorem reads_peek : Reads more Token.erased peek peek :=
  reads_step (f := Stream.head) (g := id) (fun _ => rfl) (fun _ => Nat.le_refl _)
    fun _ _ h hopen => ⟨h.head hopen, h⟩

theorem open_of_tail {s : Stream} (h : s.tail.Open more) : s.Open more :=
  h.imp_left fun hrest hs => hrest (congrArg List.tail hs)

theorem reads_next : Reads more Token.erased next next :=
  reads_step (f := Stream.head) (g := Stream.tail) (fun _ => rfl)
    (fun s => (List.tail_sublist s.rest).length_le)
    fun _ _ h hopen => ⟨h.head (open_of_tail hopen), h.tail (open_of_tail hopen)⟩

theorem reads_startsWith (kind : Kind) : Reads more id (startsWith kind) (startsWith kind) :=
  reads_step (f := (·.startsWith kind)) (g := id) (fun _ => rfl) (fun _ => Nat.le_refl _)
    fun _ _ h hopen => ⟨h.startsWith hopen kind, h⟩

theorem reads_skipSemicolons :
    Reads more (id : Unit → Unit) skipSemicolons skipSemicolons :=
  reads_step (f := fun _ => ()) (g := Stream.skipped) (fun _ => rfl)
    (fun _ => (List.dropWhile_sublist _).length_le) fun _ _ h hopen => ⟨rfl, h.skipped hopen⟩

/-- Looks at the next token before it takes it. -/
theorem reads_takeIf (kind : Kind) {α γ : Type} {er : α → γ} {a : Token → α} {m m' : ParseM α}
    (ha : ∀ t t', t.erased = t'.erased → er (a t) = er (a t')) (h : Reads more er m m') :
    Reads more er
      (get >>= fun s => if s.startsWith kind then next >>= fun t => pure (a t) else m)
      (get >>= fun s => if s.startsWith kind then next >>= fun t => pure (a t) else m') :=
  Reads.choose (fun _ _ h hopen => h.startsWith hopen kind)
    (reads_next.bind fun t t' ht => reads_pure (ha t t' ht)) h

theorem reads_accept (kind : Kind) : Reads more id (accept kind) (accept kind) := by
  have heq : accept kind = get >>= fun s =>
      if s.startsWith kind then next >>= fun _ => pure true else pure false := by
    funext s
    show (if s.startsWith kind then _ else _ : ParseM Bool) s =
      (if s.startsWith kind then _ else _ : ParseM Bool) s
    split <;> rfl
  rw [heq]
  exact reads_takeIf kind (fun _ _ _ => rfl) (reads_pure rfl)

theorem reads_expect (kind : Kind) (expectation : Expectation) :
    Reads more Token.erased (expect kind expectation) (expect kind expectation) := by
  have heq : expect kind expectation = get >>= fun s =>
      if s.startsWith kind then next >>= fun t => pure t
      else fun s => .error (.error ⟨expectation, s.head⟩) := by
    funext s
    show (if s.startsWith kind then _ else _ : ParseM Token) s =
      (if s.startsWith kind then _ else _ : ParseM Token) s
    split <;> rfl
  rw [heq]
  exact reads_takeIf kind (fun _ _ h => h) reads_error

end

end ParseM

namespace Node

open ParseM

/-! ## Readers of trees -/

theorem erased_ofToken {t t' : Token} {children children' : List Node} (ht : t.erased = t'.erased)
    (h : children.map erased = children'.map erased) :
    (ofToken t children).erased = (ofToken t' children').erased := by
  obtain ⟨hkind, hlexeme, -⟩ := Token.mk.inj ht
  exact erased_eq_iff.2 ⟨hkind, hlexeme, h⟩

theorem map_erased_cons {node node' : Node} {rest rest' : List Node}
    (h : node.erased = node'.erased) (hrest : rest.map erased = rest'.map erased) :
    (node :: rest).map erased = (node' :: rest').map erased :=
  congrArg₂ List.cons h hrest

theorem erased_commaItems {left left' : Node} (h : left.erased = left'.erased) :
    (commaItems left).map erased = (commaItems left').map erased := by
  obtain ⟨kind, literal, position, children⟩ := left
  obtain ⟨kind', literal', position', children'⟩ := left'
  obtain ⟨rfl, rfl, hchildren⟩ := erased_eq_iff.1 h
  unfold commaItems
  dsimp only
  split
  · exact hchildren
  · exact congrArg (fun node => [node]) h

theorem erased_applied (paren paren' : Token) {callee callee' : Node}
    (h : callee.erased = callee'.erased) {arguments arguments' : List Node}
    (harguments : arguments.map erased = arguments'.map erased) :
    (applied paren callee arguments).erased = (applied paren' callee' arguments').erased := by
  obtain ⟨kind, literal, position, children⟩ := callee
  obtain ⟨kind', literal', position', children'⟩ := callee'
  obtain ⟨rfl, rfl, hchildren⟩ := erased_eq_iff.1 h
  unfold applied
  split
  · next object method e =>
    obtain ⟨rfl, rfl, rfl, rfl⟩ := Node.mk.inj e
    obtain ⟨object', rest, rfl, hobject, hrest⟩ := List.map_eq_cons_iff.1 hchildren.symm
    obtain ⟨method', rest', rfl, hmethod, hnone⟩ := List.map_eq_cons_iff.1 hrest
    cases List.map_eq_nil_iff.1 hnone
    exact erased_eq_iff.2
      ⟨rfl, rfl, map_erased_cons hobject.symm (map_erased_cons hmethod.symm harguments)⟩
  · next hne =>
    split
    · next object' method' e =>
      obtain ⟨rfl, rfl, rfl, rfl⟩ := Node.mk.inj e
      obtain ⟨object, rest, rfl, -, hrest⟩ := List.map_eq_cons_iff.1 hchildren
      obtain ⟨method, rest', rfl, -, hnone⟩ := List.map_eq_cons_iff.1 hrest
      cases List.map_eq_nil_iff.1 hnone
      exact absurd rfl (hne _ _ _ _)
    · exact erased_eq_iff.2 ⟨rfl, rfl, map_erased_cons h harguments⟩

section

variable {more : Stream} {expr expr' : Nat → ParseM Node}
  (hexpr : ∀ power, Reads more erased (expr power) (expr' power))

theorem reads_cons {first first' : Node} {others others' : ParseM (List Node)}
    (hfirst : first.erased = first'.erased) (hothers : Reads more (List.map erased) others others') :
    Reads more (List.map erased) (do return first :: (← others)) (do return first' :: (← others')) :=
  hothers.bind fun _ _ hrest => reads_pure (map_erased_cons hfirst hrest)

include hexpr

theorem reads_statements (closer : Option Kind) : ∀ {fuel fuel' : Nat}, fuel ≤ fuel' →
    Reads more (List.map erased) (statements expr closer fuel) (statements expr' closer fuel') := by
  have hcloser : ∀ s s' : Stream, s.Alike more s' → s.Open more →
      closer.any s.startsWith = closer.any s'.startsWith := by
    intro s s' h hopen
    cases closer with
    | none => rfl
    | some kind => exact h.startsWith hopen kind
  intro fuel
  induction fuel with
  | zero => exact fun _ => reads_exhausted
  | succ fuel ih =>
    intro fuel' hfuel
    obtain ⟨fuel', rfl⟩ : ∃ n, fuel' = n + 1 := ⟨fuel' - 1, by omega⟩
    have hrest := ih (Nat.le_of_succ_le_succ hfuel)
    unfold statements
    refine reads_skipSemicolons.bind fun _ _ _ => ?_
    refine Reads.choose (g := fun s => closer.any s.startsWith || s.rest.isEmpty)
      (fun s s' h hopen => by rw [hcloser s s' h hopen, h.isEmpty hopen]) (reads_pure rfl) ?_
    refine (hexpr 0).bind fun statement statement' hstatement => ?_
    refine Reads.choose (g := fun s => !closer.any s.startsWith)
      (fun s s' h hopen => by rw [hcloser s s' h hopen]) ?_ (reads_cons hstatement hrest)
    exact (reads_expect _ _).discard.bind fun _ _ _ => reads_cons hstatement hrest

theorem reads_items : ∀ {fuel fuel' : Nat}, fuel ≤ fuel' →
    Reads more (List.map erased) (items expr fuel) (items expr' fuel') := by
  intro fuel
  induction fuel with
  | zero => exact fun _ => reads_exhausted
  | succ fuel ih =>
    intro fuel' hfuel
    obtain ⟨fuel', rfl⟩ : ∃ n, fuel' = n + 1 := ⟨fuel' - 1, by omega⟩
    unfold items
    refine (hexpr _).bind fun item item' hitem => (reads_accept _).bind fun again _ h => ?_
    cases h
    refine Reads.ite ?_ ?_
    · exact reads_cons hitem (ih (Nat.le_of_succ_le_succ hfuel))
    · exact reads_pure (map_erased_cons hitem rfl)

theorem reads_enclosed (closer : Kind) (expectation : Expectation) {fuel fuel' : Nat}
    (hfuel : fuel ≤ fuel') :
    Reads more (List.map erased) (enclosed expr closer expectation fuel)
      (enclosed expr' closer expectation fuel') := by
  have hclosed : ∀ children children' : List Node, children.map erased = children'.map erased →
      Reads more (List.map erased)
        (do discard (expect closer expectation); return children)
        (do discard (expect closer expectation); return children') :=
    fun _ _ h => (reads_expect _ _).discard.bind fun _ _ _ => reads_pure h
  unfold enclosed
  refine (reads_startsWith _).bind fun empty _ h => ?_
  cases h
  exact Reads.ite (hclosed [] [] rfl) ((reads_items hexpr hfuel).bind hclosed)

theorem reads_block {fuel fuel' : Nat} (hfuel : fuel ≤ fuel') :
    Reads more erased (block expr fuel) (block expr' fuel') := by
  unfold block
  refine (reads_expect _ _).discard.bind fun _ _ _ => reads_peek.bind fun first first' _ => ?_
  refine (reads_statements hexpr _ hfuel).bind fun children children' hchildren => ?_
  refine (reads_expect _ _).discard.bind fun _ _ _ => reads_pure ?_
  exact erased_eq_iff.2 ⟨rfl, rfl, hchildren⟩

theorem reads_alternatives {depth depth' : Nat} (hdepth : depth ≤ depth') :
    ∀ {fuel fuel' : Nat}, fuel ≤ fuel' →
      Reads more (List.map erased) (alternatives expr depth fuel)
        (alternatives expr' depth' fuel') := by
  intro fuel
  induction fuel with
  | zero => exact fun _ => reads_exhausted
  | succ fuel ih =>
    intro fuel' hfuel
    obtain ⟨fuel', rfl⟩ : ∃ n, fuel' = n + 1 := ⟨fuel' - 1, by omega⟩
    have hblock := reads_block hexpr hdepth
    unfold alternatives
    refine (reads_accept _).bind fun again _ h => ?_
    cases h
    refine Reads.ite ?_ (reads_pure rfl)
    refine (reads_accept _).bind fun test _ h => ?_
    cases h
    refine Reads.ite ?_ (hblock.bind fun _ _ hbody => reads_pure (map_erased_cons hbody rfl))
    refine (hexpr 0).bind fun condition condition' hcondition => hblock.bind fun body body' hbody => ?_
    refine (ih (Nat.le_of_succ_le_succ hfuel)).bind fun rest rest' hrest => reads_pure ?_
    exact map_erased_cons hcondition (map_erased_cons hbody hrest)

theorem reads_function {fuel fuel' : Nat} (hfuel : fuel ≤ fuel') :
    Reads more (List.map erased) (function expr fuel) (function expr' fuel') := by
  unfold function
  refine (reads_expect _ _).bind fun bracket bracket' _ => ?_
  refine (reads_enclosed hexpr _ _ hfuel).bind fun parameters parameters' hparameters => ?_
  refine reads_peek.bind fun first first' _ => (reads_accept _).bind fun more' _ h => ?_
  cases h
  have hrest : ∀ channels channels' : List Node, channels.map erased = channels'.map erased →
      Reads more (List.map erased)
        (do
          let body ← block expr fuel
          return [⟨.leftParen, "params", bracket.position, parameters⟩,
            ⟨.leftBracket, "channels", first.position, channels⟩, body])
        (do
          let body ← block expr' fuel'
          return [⟨.leftParen, "params", bracket'.position, parameters'⟩,
            ⟨.leftBracket, "channels", first'.position, channels'⟩, body]) := by
    intro channels channels' hchannels
    refine (reads_block hexpr hfuel).bind fun body body' hbody => reads_pure ?_
    refine map_erased_cons (erased_eq_iff.2 ⟨rfl, rfl, hparameters⟩) ?_
    exact map_erased_cons (erased_eq_iff.2 ⟨rfl, rfl, hchannels⟩) (map_erased_cons hbody rfl)
  exact Reads.ite ((reads_enclosed hexpr _ _ hfuel).bind hrest) (hrest [] [] rfl)

theorem reads_one {t t' : Token} (ht : t.erased = t'.erased) (power : Nat) :
    Reads more erased (do return ofToken t [← expr power]) (do return ofToken t' [← expr' power]) :=
  (hexpr power).bind fun _ _ h => reads_pure (erased_ofToken ht (map_erased_cons h rfl))

theorem reads_start {fuel fuel' : Nat} (hfuel : fuel ≤ fuel') {t t' : Token}
    (ht : t.erased = t'.erased) :
    Reads more erased (start expr fuel t) (start expr' fuel' t') := by
  obtain ⟨kind, lexeme, position⟩ := t
  obtain ⟨kind', lexeme', position'⟩ := t'
  obtain ⟨rfl, rfl, -⟩ := Token.mk.inj ht
  have hleaf : Reads more erased (pure (ofToken ⟨kind, lexeme, position⟩ []))
      (pure (ofToken ⟨kind, lexeme, position'⟩ [])) := reads_pure (erased_ofToken ht rfl)
  unfold start
  cases kind with
  | identifier | int | float | string | trueWord | falseWord | nilWord | breakWord
  | continueWord => exact hleaf
  | not | minus => exact reads_one hexpr ht _
  | leftParen =>
    refine (reads_accept _).bind fun empty _ h => ?_
    cases h
    refine Reads.ite hleaf ((hexpr 0).bind fun inner inner' hinner => ?_)
    exact (reads_expect _ _).discard.bind fun _ _ _ => reads_pure hinner
  | returnWord =>
    refine reads_peek.bind fun next next' hnext => ?_
    rw [Stream.kind_of_erased hnext]
    exact Reads.ite hleaf (reads_one hexpr ht _)
  | externWord =>
    exact (reads_items hexpr hfuel).bind fun _ _ h => reads_pure (erased_ofToken ht h)
  | funcWord =>
    exact (reads_function hexpr hfuel).bind fun _ _ h => reads_pure (erased_ofToken ht h)
  | ifWord =>
    refine (hexpr 0).bind fun condition condition' hcondition => ?_
    refine (reads_block hexpr hfuel).bind fun body body' hbody => ?_
    refine (reads_alternatives hexpr hfuel hfuel).bind fun rest rest' hrest => reads_pure ?_
    exact erased_ofToken ht (map_erased_cons hcondition (map_erased_cons hbody hrest))
  | whileWord =>
    refine (hexpr 0).bind fun condition condition' hcondition => ?_
    refine (reads_block hexpr hfuel).bind fun body body' hbody => reads_pure ?_
    exact erased_ofToken ht (map_erased_cons hcondition (map_erased_cons hbody rfl))
  | _ => exact reads_fail

theorem reads_two {t t' : Token} (ht : t.erased = t'.erased) {left left' : Node}
    (hleft : left.erased = left'.erased) (power : Nat) :
    Reads more erased (do return ofToken t [left, ← expr power])
      (do return ofToken t' [left', ← expr' power]) :=
  (hexpr power).bind fun _ _ h =>
    reads_pure (erased_ofToken ht (map_erased_cons hleft (map_erased_cons h rfl)))

theorem reads_extend {fuel fuel' : Nat} (hfuel : fuel ≤ fuel') {t t' : Token}
    (ht : t.erased = t'.erased) {left left' : Node} (hleft : left.erased = left'.erased) :
    Reads more erased (extend expr fuel t left) (extend expr' fuel' t' left') := by
  obtain ⟨kind, lexeme, position⟩ := t
  obtain ⟨kind', lexeme', position'⟩ := t'
  obtain ⟨rfl, rfl, -⟩ := Token.mk.inj ht
  unfold extend
  cases kind with
  | comma =>
    refine (hexpr _).bind fun item item' hitem => reads_pure (erased_ofToken ht ?_)
    rw [List.map_append, List.map_append, erased_commaItems hleft, map_erased_cons hitem rfl]
  | leftParen =>
    exact (reads_enclosed hexpr _ _ hfuel).bind fun arguments arguments' h =>
      reads_pure (erased_applied _ _ hleft h)
  | leftBracket =>
    refine (hexpr 0).bind fun index index' hindex => (reads_expect _ _).discard.bind fun _ _ _ => ?_
    exact reads_pure (erased_ofToken ht (map_erased_cons hleft (map_erased_cons hindex rfl)))
  | period =>
    refine (reads_expect _ _).bind fun field field' hfield => reads_pure (erased_ofToken ht ?_)
    exact map_erased_cons hleft (map_erased_cons (erased_ofToken hfield rfl) rfl)
  | _ => exact reads_two hexpr ht hleft _

theorem reads_operators {depth depth' : Nat} (hdepth : depth ≤ depth') (power : Nat) :
    ∀ {fuel fuel' : Nat}, fuel ≤ fuel' → ∀ {left left' : Node}, left.erased = left'.erased →
      Reads more erased (operators expr depth power fuel left)
        (operators expr' depth' power fuel' left') := by
  intro fuel
  induction fuel with
  | zero => exact fun _ _ _ _ => reads_exhausted
  | succ fuel ih =>
    intro fuel' hfuel left left' hleft
    obtain ⟨fuel', rfl⟩ : ∃ n, fuel' = n + 1 := ⟨fuel' - 1, by omega⟩
    unfold operators
    refine reads_peek.bind fun t t' ht => ?_
    rw [Stream.kind_of_erased ht]
    split
    · refine reads_next.bind fun u u' hu => ?_
      exact (reads_extend hexpr hdepth hu hleft).bind fun _ _ h =>
        ih (Nat.le_of_succ_le_succ hfuel) h
    · exact reads_pure hleft

end

theorem reads_expression {more : Stream} : ∀ {fuel fuel' : Nat}, fuel ≤ fuel' →
    ∀ power, Reads more erased (expression fuel power) (expression fuel' power) := by
  intro fuel
  induction fuel with
  | zero => exact fun _ _ => reads_exhausted
  | succ fuel ih =>
    intro fuel' hfuel power
    obtain ⟨fuel', rfl⟩ : ∃ n, fuel' = n + 1 := ⟨fuel' - 1, by omega⟩
    have hle : fuel ≤ fuel' := Nat.le_of_succ_le_succ hfuel
    unfold expression
    refine reads_next.bind fun t t' ht => ?_
    exact (reads_start (ih hle) hle ht).bind fun left left' hleft =>
      reads_operators (ih hle) hle power hle hleft

end Node

end Scripting

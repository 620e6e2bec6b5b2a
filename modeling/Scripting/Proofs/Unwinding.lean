import Scripting.Proofs.Signals
import Scripting.Proofs.Timeline

/-!
# Proofs: how far signals travel

A signal ends every construct that it reaches and goes on to the next one around, until it comes to
what takes it in: the body of a loop, or a call. The way from there to where the signal was made
leads through operands alone, and for a return also through loops. So a return ends the innermost
call, and a break or continue belongs to the innermost loop whose body contains it.
-/

namespace Scripting

open Eval

theorem Function.Sound.escapes {f : Function} {s : Store} (h : f.Sound s) :
    f.body.escapes = false := by
  rcases h.origin with (rfl | rfl) | ⟨a, hmade⟩
  · rfl
  · rfl
  · exact hmade.governs.escapes

namespace Moment

variable {start a b c : Moment} {s : State} {values : List Value}

/-! ## Kinds of parts -/

/-- The task of the second moment is the body of the loop of the first. -/
inductive Repeats : Moment → Moment → Prop
  | body {level condition body scope position bound s test s₁}
    (h : condition.Passes level scope s [test] s₁) (htest : test.isTruthy = true) :
    Repeats ⟨level, .rounds condition body scope position (bound + 1), s⟩
      ⟨level, .code body scope, s₁⟩

/-- The task of the second moment is the body of the function that the first one calls. -/
inductive Enters : Moment → Moment → Prop
  | body {level f values caller position s scope s₁} (hcount : values.length = f.arity)
    (henter : enter f values caller.chain position s = .ok scope s₁) :
    Enters ⟨level + 1, .call f values caller position, s⟩ ⟨level, .code f.body scope, s₁⟩

/-- The task is to evaluate code or to go round a loop. -/
def Evaluates (m : Moment) : Prop :=
  match m.task with
  | .code _ _ | .rounds _ _ _ _ _ => True
  | .call _ _ _ _ | .writes _ _ _ => False

/-- The second moment is reached through operands alone. -/
def Nested : Moment → Moment → Prop :=
  Relation.ReflTransGen Operand

/-- The second moment is reached through operands and bodies of loops, so it belongs to the same
call. -/
def SameCall : Moment → Moment → Prop :=
  Relation.ReflTransGen fun a b => a.Operand b ∨ a.Repeats b

/-- The loop of the first moment comes to the round of the second. -/
inductive Rounds : Moment → Moment → Prop
  | first {level condition body scope position s} :
    Rounds ⟨level, .code (.loop condition body position) scope, s⟩
      ⟨level, .rounds condition body scope position level, s⟩
  | next {l level condition body scope position bound s s₁}
    (h : Rounds l ⟨level, .rounds condition body scope position (bound + 1), s⟩)
    (hstep : Starts ⟨level, .rounds condition body scope position (bound + 1), s⟩
      ⟨level, .rounds condition body scope position bound, s₁⟩) :
    Rounds l ⟨level, .rounds condition body scope position bound, s₁⟩

theorem Repeats.starts (h : a.Repeats b) : a.Starts b := by
  cases h with
  | body h htest => exact .body h htest

theorem Enters.starts (h : a.Enters b) : a.Starts b := by
  cases h with
  | body hcount henter => exact .enter hcount henter

theorem Operand.evaluates (h : a.Operand b) : a.Evaluates := by
  cases h <;> exact trivial

theorem Repeats.evaluates (h : a.Repeats b) : a.Evaluates := by
  cases h
  exact trivial

/-- What starts is an operand, the body of a loop, the body of a function, a call or writes. -/
theorem Starts.kinds (h : a.Starts b) (hb : b.Evaluates) :
    a.Operand b ∨ a.Repeats b ∨ a.Enters b := by
  cases h with
  | first h => exact .inl (.part (.first h))
  | sequence h => exact .inl (.part (.sequence h))
  | both h => exact .inl (.part (.both h))
  | default h => exact .inl (.part (.default h))
  | binary h => exact .inl (.part (.binary h))
  | logical h hgo => exact .inl (.part (.logical h hgo))
  | yes h htest => exact .inl (.part (.yes h htest))
  | no h htest => exact .inl (.part (.no h htest))
  | arguments h => exact .inl (.part (.arguments h))
  | loop => exact .inl .loop
  | condition => exact .inl .condition
  | round h htest hbody hgo => exact .inl (.round (.round h htest hbody hgo))
  | body h htest => exact .inr (.inl (.body h htest))
  | enter hcount henter => exact .inr (.inr (.body hcount henter))
  | assign | accumulate | defaultWrites | apply | locals | parameters | write => exact hb.elim

theorem SameCall.within (h : a.SameCall b) : a.Within b :=
  Relation.ReflTransGen.mono (fun _ _ hstep => hstep.elim Operand.starts Repeats.starts) a b h

theorem Nested.sameCall (h : a.Nested b) : a.SameCall b :=
  Relation.ReflTransGen.mono (fun _ _ hstep => Or.inl hstep) a b h

/-! ## Ways to a moment -/

/-- Evaluation that belongs to a task belongs to the same call or to one that was entered last. -/
theorem Within.sameCall_or (h : start.Within b) (hb : b.Evaluates) :
    start.SameCall b ∨ ∃ c d, start.Within c ∧ c.Enters d ∧ d.SameCall b := by
  induction h with
  | refl => exact Or.inl .refl
  | @tail a b ha hstep ih =>
    have hextend : a.Evaluates → a.Operand b ∨ a.Repeats b →
        start.SameCall b ∨ ∃ c d, start.Within c ∧ c.Enters d ∧ d.SameCall b := by
      intro heval hnext
      rcases ih heval with hsame | ⟨c, d, hc, henters, hsame⟩
      · exact Or.inl (hsame.tail hnext)
      · exact Or.inr ⟨c, d, hc, henters, hsame.tail hnext⟩
    rcases hstep.kinds hb with hoperand | hrepeats | henters
    · exact hextend hoperand.evaluates (Or.inl hoperand)
    · exact hextend hrepeats.evaluates (Or.inr hrepeats)
    · exact Or.inr ⟨a, b, ha, henters, .refl⟩

/-- What belongs to the same call is reached through operands, or from the body of a loop that was
entered last. -/
theorem SameCall.nested_or (h : a.SameCall b) :
    a.Nested b ∨ ∃ w d, a.SameCall w ∧ w.Repeats d ∧ d.Nested b := by
  induction h with
  | refl => exact Or.inl .refl
  | @tail w b hw hstep ih =>
    rcases hstep with hoperand | hrepeats
    · rcases ih with hnested | ⟨w', d, hw', hrepeats, hnested⟩
      · exact Or.inl (hnested.tail hoperand)
      · exact Or.inr ⟨w', d, hw', hrepeats, hnested.tail hoperand⟩
    · exact Or.inr ⟨w, b, hw, hrepeats, .refl⟩

/-- The task is a round of a loop. -/
def IsRound (m : Moment) : Prop :=
  match m.task with
  | .rounds _ _ _ _ _ => True
  | _ => False

/-- A round that belongs to code belongs to a loop there. -/
theorem SameCall.loop_of_round (h : a.SameCall b) (ha : ¬ a.IsRound) (hb : b.IsRound) :
    ∃ l, a.SameCall l ∧ l.Rounds b := by
  induction h with
  | refl => exact absurd hb ha
  | tail hsame hstep ih =>
    rcases hstep with hoperand | hrepeats
    · cases hoperand with
      | part | condition => exact hb.elim
      | loop => exact ⟨_, hsame, .first⟩
      | round hround =>
        obtain ⟨l, hl, hrounds⟩ := ih trivial
        exact ⟨l, hl, .next hrounds hround⟩
    · cases hrepeats
      exact hb.elim

/-! ## Ways of signals -/

/-- At any depth of operands, a signal of the innermost one is the result of all around it. -/
theorem Nested.signal (h : a.Nested b) (hb : b.result = .ok values s)
    (hsignal : Value.isSignal values = true) : a.result = .ok values s := by
  induction h with
  | refl => exact hb
  | tail _ hstep ih => exact ih (hstep.signal hb hsignal)

theorem not_passes {level : Nat} {part : Code} {scope : Scope} {s s₁ s₂ : State}
    {values values' : List Value} (hpart : result ⟨level, .code part scope, s⟩ = .ok values s₁)
    (hsignal : Value.isSignal values = true) : ¬ part.Passes level scope s values' s₂ := by
  intro h
  cases h.1.symm.trans hpart
  exact Bool.false_ne_true (h.2.symm.trans hsignal)

theorem unique_of_passes {level : Nat} {part : Code} {scope : Scope} {s s₁ s₂ : State}
    {values values' : List Value} (h : part.Passes level scope s values s₁)
    (h' : part.Passes level scope s values' s₂) : values = values' ∧ s₁ = s₂ := by
  cases h.1.symm.trans h'.1
  exact ⟨rfl, rfl⟩

theorem before_of_ok (h : b.result = .ok values s) : a.Before b.ending s :=
  ending_of_ok h ▸ .refl

/-- Once an operand yields a signal, its construct starts no other part: all others have ended. -/
theorem Operand.last (h : a.Operand b) (hb : b.result = .ok values s)
    (hsignal : Value.isSignal values = true) (hc : a.Starts c) :
    c = b ∨ a.Before c.ending b.state := by
  cases h with
  | part h =>
    cases h with
    | first hfirst =>
      cases hc with
      | first hfirst' =>
        cases hfirst.symm.trans hfirst'
        exact Or.inl rfl
      | default | defaultWrites | loop => cases hfirst
      | sequence h | both h | assign h | accumulate h | binary h | logical h | yes h | no h
      | arguments h | apply h =>
        cases hfirst
        exact absurd h (not_passes hb hsignal)
    | sequence h =>
      cases hc with
      | first hfirst =>
        cases hfirst
        exact Or.inr (before_of_ok h.1)
      | sequence h' =>
        obtain ⟨-, rfl⟩ := unique_of_passes h h'
        exact Or.inl rfl
    | both h =>
      cases hc with
      | first hfirst =>
        cases hfirst
        exact Or.inr (before_of_ok h.1)
      | both h' =>
        obtain ⟨-, rfl⟩ := unique_of_passes h h'
        exact Or.inl rfl
    | default h =>
      cases hc with
      | first hfirst => cases hfirst
      | default => exact Or.inl rfl
      | defaultWrites _ h => exact absurd h (not_passes hb hsignal)
    | binary h =>
      cases hc with
      | first hfirst =>
        cases hfirst
        exact Or.inr (before_of_ok h.1)
      | binary h' =>
        obtain ⟨-, rfl⟩ := unique_of_passes h h'
        exact Or.inl rfl
    | logical h =>
      cases hc with
      | first hfirst =>
        cases hfirst
        exact Or.inr (before_of_ok h.1)
      | logical h' =>
        obtain ⟨-, rfl⟩ := unique_of_passes h h'
        exact Or.inl rfl
    | yes h htest | no h htest =>
      cases hc with
      | first hfirst =>
        cases hfirst
        exact Or.inr (before_of_ok h.1)
      | yes h' htest' | no h' htest' =>
        obtain ⟨hvalues, rfl⟩ := unique_of_passes h h'
        cases hvalues
        first | exact Or.inl rfl | cases htest.symm.trans htest'
    | arguments h =>
      cases hc with
      | first hfirst =>
        cases hfirst
        exact Or.inr (before_of_ok h.1)
      | arguments h' =>
        obtain ⟨-, rfl⟩ := unique_of_passes h h'
        exact Or.inl rfl
      | apply h' harguments =>
        obtain ⟨-, rfl⟩ := unique_of_passes h h'
        exact absurd harguments (not_passes hb hsignal)
  | loop =>
    cases hc with
    | first hfirst => cases hfirst
    | loop => exact Or.inl rfl
  | condition =>
    cases hc with
    | condition => exact Or.inl rfl
    | body h | round h => exact absurd h (not_passes hb hsignal)
  | round h =>
    cases h with
    | round h htest hbody =>
      cases hc with
      | condition =>
        -- The body runs after the condition and before the rounds that are left.
        exact Or.inr (.trans (before_of_ok h.1)
          (.head (.ends (.single (.body h htest))) (before_of_ok hbody)))
      | body h' =>
        obtain ⟨-, rfl⟩ := unique_of_passes h h'
        exact Or.inr (before_of_ok hbody)
      | round h' _ hbody' =>
        obtain ⟨-, rfl⟩ := unique_of_passes h h'
        cases hbody.symm.trans hbody'
        exact Or.inl rfl

theorem Repeats.returning (h : a.Repeats b)
    (hb : b.result = .ok [.control (.returning values)] s) :
    a.result = .ok [.control (.returning values)] s := by
  cases h with
  | body h htest => exact (iterate_of_truthy h.1 h.2 htest).trans (bind_ok hb)

/-- A break of the body ends the loop. -/
theorem Repeats.breaking (h : a.Repeats b) (hb : b.result = .ok [.control .breaking] s) :
    a.result = .ok [.bool false] s := by
  cases h with
  | body h htest => exact (iterate_of_truthy h.1 h.2 htest).trans (bind_ok hb)

/-- A continue of the body ends the round, and the next one starts there. -/
theorem Repeats.continuing (h : a.Repeats b) (hb : b.result = .ok [.control .continuing] s)
    {l : Moment} (hl : l.Rounds a) : ∃ next, a.Starts next ∧ next.state = s ∧ l.Rounds next := by
  cases h with
  | body h htest =>
    exact ⟨_, .round h htest hb rfl, rfl, .next hl (.round h htest hb rfl)⟩

theorem SameCall.returning (h : a.SameCall b)
    (hb : b.result = .ok [.control (.returning values)] s) :
    a.result = .ok [.control (.returning values)] s := by
  induction h with
  | refl => exact hb
  | tail _ hstep ih =>
    refine ih ?_
    rcases hstep with hoperand | hrepeats
    · exact hoperand.signal hb rfl
    · exact hrepeats.returning hb

theorem Enters.result (h : a.Enters b) (hb : b.result = .ok values s) :
    a.result = .ok (returned values) s := by
  cases h with
  | body hcount henter => exact (resumes_enter hcount henter).trans (bind_ok hb)

theorem Rounds.result (h : a.Rounds b) : a.result = b.result := by
  induction h with
  | first => rfl
  | next _ hstep ih =>
    rw [ih]
    cases hstep with
    | round h htest hbody hgo => exact result_of_round h htest hbody hgo

/-! ## Breaks and continues -/

/-- Code that no break or continue can leave. -/
def Keeps (m : Moment) : Prop :=
  ∃ code scope, m.task = .code code scope ∧ code.escapes = false

theorem Keeps.not_isRound (h : a.Keeps) : ¬ a.IsRound := by
  obtain ⟨code, scope, htask, -⟩ := h
  unfold IsRound
  rw [htask]
  exact id

/-- A break or continue within code that it cannot leave is in the body of a loop there. -/
theorem Keeps.loop (ha : a.Keeps) (hfine : a.Fine) (h : a.SameCall b)
    (hb : b.result = .ok [.control .breaking] s ∨ b.result = .ok [.control .continuing] s) :
    ∃ l w d, a.SameCall l ∧ l.Rounds w ∧ w.Repeats d ∧ d.Nested b := by
  rcases h.nested_or with hnested | ⟨w, d, hw, hrepeats, hnested⟩
  · obtain ⟨code, scope, htask, hescapes⟩ := ha
    have hleaves : ∀ values, a.result = .ok values s →
        values = [.control .breaking] ∨ values = [.control .continuing] → code.escapes = true := by
      intro values hresult hvalues
      have hyields := hfine.yields hresult
      rw [htask] at hyields
      exact Value.Yielded.leaves hyields hvalues
    rw [hescapes] at hleaves
    rcases hb with hb | hb
    · cases hleaves _ (hnested.signal hb rfl) (Or.inl rfl)
    · cases hleaves _ (hnested.signal hb rfl) (Or.inr rfl)
  · have hround : w.IsRound := by
      cases hrepeats
      exact trivial
    obtain ⟨l, hl, hrounds⟩ := hw.loop_of_round ha.not_isRound hround
    exact ⟨l, w, d, hl, hrounds, hrepeats, hnested⟩

theorem Enters.keeps (h : a.Enters b) (ha : a.Fine) : b.Keeps := by
  cases h
  exact ⟨_, _, rfl, ha.ready.1.escapes⟩

/-- Every break or continue belongs to a loop whose body contains it. -/
theorem Within.loop (h : start.Within b) (hstart : start.Keeps) (hfine : start.Fine)
    (heval : b.Evaluates)
    (hb : b.result = .ok [.control .breaking] s ∨ b.result = .ok [.control .continuing] s) :
    ∃ l w d, start.Within l ∧ l.Rounds w ∧ w.Repeats d ∧ d.Nested b := by
  rcases h.sameCall_or heval with hsame | ⟨c, d, hc, henters, hsame⟩
  · obtain ⟨l, w, d, hl, hloop⟩ := hstart.loop hfine hsame hb
    exact ⟨l, w, d, hl.within, hloop⟩
  · have hcall := (hc.leads hfine).fine
    have hbody := (henters.starts.leads hcall).fine
    obtain ⟨l, w, d', hl, hloop⟩ := (henters.keeps hcall).loop hbody hsame hb
    exact ⟨l, w, d', .trans (hc.tail henters.starts) hl.within, hloop⟩

/-! ## Unwinding -/

/-- How signals travel while the task of `start` is done. `ends` says with which values and in which
state the run as a whole ends. -/
structure Unwinds (start : Moment) (ends : List Value → State → Prop) : Prop where
  /-- An operand that yields a signal ends its construct with the signal, in the state in which the
  operand ends, and all other parts that the construct starts have ended before the operand. -/
  operand : ∀ (m operand : Moment) (values : List Value) (s : State), m.Operand operand →
    operand.result = .ok values s → Value.isSignal values = true →
      m.result = .ok values s ∧
        ∀ part, m.Starts part → part = operand ∨ m.Before part.ending operand.state
  /-- So it is at any depth of operands. -/
  nested : ∀ (m operand : Moment) (values : List Value) (s : State), m.Nested operand →
    operand.result = .ok values s → Value.isSignal values = true → m.result = .ok values s
  /-- A return ends the call that was entered last, or the run if none was entered, with the values
  of its operand and in the state that the operand left. -/
  returns : ∀ (m : Moment) (operand : Code) (scope : Scope) (values : List Value) (s : State),
    start.Within m → m.task = .code (.return operand) scope →
      operand.Passes m.level scope m.state values s →
        start.SameCall m ∧ ends values s ∨
        ∃ call body, start.Within call ∧ call.Enters body ∧ body.SameCall m ∧
          call.result = .ok values s
  /-- A break ends the loop whose body leads to it through operands alone. -/
  breaks : ∀ (m : Moment) (scope : Scope), start.Within m → m.task = .code .break scope →
    ∃ loop round body, start.Within loop ∧ loop.Rounds round ∧ round.Repeats body ∧
      body.Nested m ∧ loop.result = .ok [.bool false] m.state
  /-- A continue starts the next round of the loop whose body leads to it through operands alone. -/
  continues : ∀ (m : Moment) (scope : Scope), start.Within m → m.task = .code .continue scope →
    ∃ loop round body next, start.Within loop ∧ loop.Rounds round ∧ round.Repeats body ∧
      body.Nested m ∧ round.Starts next ∧ loop.Rounds next ∧ next.state = m.state ∧
      loop.result = next.result
  /-- A loop ends with true where its condition is false. -/
  completes : ∀ (loop : Moment) (level : Nat) (condition body : Code) (scope : Scope)
    (position : Position) (bound : Nat) (s : State) (test : Value) (s₁ : State),
    loop.Rounds ⟨level, .rounds condition body scope position (bound + 1), s⟩ →
    condition.Passes level scope s [test] s₁ → test.isTruthy = false →
      loop.result = .ok [.bool true] s₁

theorem evaluates_of_code {code : Code} {scope : Scope} (h : b.task = .code code scope) :
    b.Evaluates := by
  unfold Evaluates
  rw [h]
  exact trivial

theorem result_of_code {code : Code} {scope : Scope} (h : b.task = .code code scope) :
    b.result = code.run (b.level + 1) scope b.state := by
  unfold result
  rw [h]
  rfl

/-- A return ends the call that was entered last, if there is one. -/
theorem Within.returns (h : start.Within b) {operand : Code} {scope : Scope}
    (htask : b.task = .code (.return operand) scope)
    (hvalues : operand.Passes b.level scope b.state values s) :
    start.SameCall b ∧ start.result = .ok [.control (.returning values)] s ∨
    ∃ call body, start.Within call ∧ call.Enters body ∧ body.SameCall b ∧
      call.result = .ok values s := by
  have hresult : b.result = .ok [.control (.returning values)] s :=
    (result_of_code htask).trans (unlessSignal_of_ok hvalues.1 hvalues.2)
  rcases h.sameCall_or (evaluates_of_code htask) with hsame | ⟨call, body, hcall, henters, hsame⟩
  · exact Or.inl ⟨hsame, hsame.returning hresult⟩
  · exact Or.inr ⟨call, body, hcall, henters, hsame, henters.result (hsame.returning hresult)⟩

theorem Within.breaks (h : start.Within b) (hkeeps : start.Keeps) (hfine : start.Fine)
    {scope : Scope} (htask : b.task = .code .break scope) :
    ∃ loop round body, start.Within loop ∧ loop.Rounds round ∧ round.Repeats body ∧
      body.Nested b ∧ loop.result = .ok [.bool false] b.state := by
  have hresult : b.result = .ok [.control .breaking] b.state := result_of_code htask
  obtain ⟨loop, round, body, hloop, hround, hbody, hnested⟩ :=
    h.loop hkeeps hfine (evaluates_of_code htask) (Or.inl hresult)
  refine ⟨loop, round, body, hloop, hround, hbody, hnested, hround.result.trans ?_⟩
  exact hbody.breaking (hnested.signal hresult rfl)

theorem Within.continues (h : start.Within b) (hkeeps : start.Keeps) (hfine : start.Fine)
    {scope : Scope} (htask : b.task = .code .continue scope) :
    ∃ loop round body next, start.Within loop ∧ loop.Rounds round ∧ round.Repeats body ∧
      body.Nested b ∧ round.Starts next ∧ loop.Rounds next ∧ next.state = b.state ∧
      loop.result = next.result := by
  have hresult : b.result = .ok [.control .continuing] b.state := result_of_code htask
  obtain ⟨loop, round, body, hloop, hround, hbody, hnested⟩ :=
    h.loop hkeeps hfine (evaluates_of_code htask) (Or.inr hresult)
  obtain ⟨next, hstarts, hstate, hnext⟩ := hbody.continuing (hnested.signal hresult rfl) hround
  exact ⟨loop, round, body, next, hloop, hround, hbody, hnested, hstarts, hnext, hstate,
    hnext.result⟩

end Moment

/-- Unwinding is exact in every run of every session. In particular, the conditions of inner loops
are operands, so that a break there belongs to a loop around them. -/
theorem unwinding_exact {a b : Session} {display : Display} {source : String} {code : Code}
    (ha : a.Reachable) (hprepare : Session.prepare display source a = .ok code b) (level : Nat) :
    Moment.Unwinds ⟨level, .code code .global, b.state⟩ fun values s =>
      Session.run (level + 1) display source a = .ok values { b with state := s } := by
  obtain ⟨-, -, hescapes⟩ := Session.ready_of_prepare ha.sound hprepare
  have hfine : Moment.Fine ⟨level, .code code .global, b.state⟩ :=
    Session.fine_of_prepare ha.sound hprepare
  have hkeeps : Moment.Keeps ⟨level, .code code .global, b.state⟩ := ⟨code, .global, rfl, hescapes⟩
  refine ⟨?_, ?_, ?_, ?_, ?_, ?_⟩
  · intro m operand values s hoperand hresult hsignal
    exact ⟨hoperand.signal hresult hsignal, fun part => hoperand.last hresult hsignal⟩
  · exact fun m operand values s hnested hresult hsignal => hnested.signal hresult hsignal
  · intro m operand scope values s hm htask hvalues
    rcases hm.returns htask hvalues with ⟨hsame, hresult⟩ | hcall
    · refine Or.inl ⟨hsame, ?_⟩
      have heval : code.run (level + 1) .global b.state = .ok [.control (.returning values)] s :=
        hresult
      rw [Session.run_of_prepare hprepare, heval]
      rfl
    · exact Or.inr hcall
  · exact fun m scope hm htask => hm.breaks hkeeps hfine htask
  · exact fun m scope hm htask => hm.continues hkeeps hfine htask
  · intro loop level condition body scope position bound s test s₁ hround htest hfalse
    exact hround.result.trans (iterate_of_falsy htest.1 htest.2 hfalse)

/-- The break stands in the condition of the inner loop and ends the outer one. -/
theorem unwinding_exact_condition :
    ∃ inner m : Moment, inner.task = .code (.loop .break .nothing ⟨1, 14⟩) .global ∧
      inner.Nested m ∧ m.task = .code .break .global ∧
      inner.result = .ok [.control .breaking] m.state ∧
      (∃ loop round body : Moment, loop.Rounds round ∧ round.Repeats body ∧ body.Nested m ∧
        loop.result = .ok [.bool false] m.state) ∧
      Session.run 3 .plain "while true { while (break) { } }" (.start 0) =
        .ok [.bool false] (.start 0) := by
  have hprepare : Session.prepare .plain "while true { while (break) { } }" (.start 0) =
      .ok (.loop (.literal (.bool true)) (.loop .break .nothing ⟨1, 14⟩) ⟨1, 1⟩) (.start 0) := rfl
  have hunwinds := unwinding_exact (.start 0) hprepare 2
  have hnested : Moment.Nested
      ⟨2, .code (.loop .break .nothing ⟨1, 14⟩) .global, (Session.start 0).state⟩
      ⟨2, .code .break .global, (Session.start 0).state⟩ := .tail (.tail .refl .loop) .condition
  have hwithin : Moment.Within
      ⟨2, .code (.loop (.literal (.bool true)) (.loop .break .nothing ⟨1, 14⟩) ⟨1, 1⟩) .global,
        (Session.start 0).state⟩
      ⟨2, .code .break .global, (Session.start 0).state⟩ :=
    .trans (.tail (.tail .refl .loop) (.body ⟨rfl, rfl⟩ rfl)) hnested.sameCall.within
  obtain ⟨loop, round, body, -, hround, hbody, hbreak, hresult⟩ :=
    hunwinds.breaks _ .global hwithin rfl
  exact ⟨_, _, rfl, hnested, rfl, hunwinds.nested _ _ _ _ hnested rfl rfl,
    ⟨loop, round, body, hround, hbody, hbreak, hresult⟩, rfl⟩

end Scripting

import Scripting.Proofs.Continuations
import Scripting.Proofs.Sessions

/-!
# Proofs: what comes before what

While a task is done, time goes from the start of each part to what the part starts, and from the
start of each part to its end. This orders all that happens: where a part ends, the next part starts
or the whole ends, so nothing ends before its parts.

The time of a session goes through its runs, those that fail too, and from each run to the next.
-/

namespace Scripting

open Eval

namespace Moment

/-! ## Time within a task -/

/-- A step of the time while the task of `start` is done. -/
inductive Follows (start : Moment) : State → State → Prop
  | comes {a b} (ha : start.Within a) (h : a.Starts b) : start.Follows a.state b.state
  | ends {a} (ha : start.Within a) : start.Follows a.state a.ending

/-- The second state comes after the first while the task of `start` is done, or is the same. -/
def Before (start : Moment) : State → State → Prop :=
  Relation.ReflTransGen start.Follows

variable {start a b c : Moment} {level : Nat} {scope : Scope} {position : Position}
  {s s₁ : State} {values : List Value}

theorem before_of_part (ha : start.Within a) (h : a.Starts b)
    (hb : start.Before b.ending a.ending) : start.Before b.state a.ending :=
  .head (.ends (ha.tail h)) hb

/-- If a part is the last one, the whole ends where it ends. -/
theorem before_of_last (ha : start.Within a) (h : a.Starts b) (hends : a.EndsWith b) :
    start.Before b.state a.ending :=
  before_of_part ha h (hends.ending_eq ▸ .refl)

theorem before_of_result {result : EStateM.Result (Stop RuntimeError) State (List Value)}
    (h : a.result = result) (hs : Scripting.ending result = s) : start.Before s a.ending := by
  unfold ending
  rw [h, hs]
  exact .refl

/-- What comes after the end of a part, if the part yields values. -/
theorem Starts.before_of_ok (h : a.Starts b)
    (hnext : ∀ values s, b.result = .ok values s → start.Before s a.ending) :
    start.Before b.ending a.ending := by
  cases hb : b.result with
  | ok values s =>
    rw [ending_of_ok hb]
    exact hnext values s hb
  | error e s =>
    rw [ending_of_error hb, ending_of_error (h.error hb)]
    exact .refl

/-- What comes after the end of an operand, if the operand yields no signal. -/
theorem Operand.before_of_passes (h : a.Operand b)
    (hnext : ∀ values s, b.result = .ok values s → Value.isSignal values = false →
      start.Before s a.ending) : start.Before b.ending a.ending := by
  refine h.starts.before_of_ok fun values s hb => ?_
  cases hsignal : Value.isSignal values with
  | true =>
    rw [ending_of_ok (h.signal hb hsignal)]
    exact .refl
  | false => exact hnext values s hb hsignal

/-- What comes after the end of an operand, if the operand yields one value and no signal. -/
theorem Operand.before_of_value (h : a.Operand b) {next : Value → Eval (List Value)}
    (hresult : a.result = withOperand (b.task.perform b.level) position next b.state)
    (hnext : ∀ v s, b.result = .ok [v] s → Value.isSignal [v] = false → a.result = next v s →
      start.Before s a.ending) : start.Before b.ending a.ending := by
  refine h.before_of_passes fun values s hb hsignal => ?_
  by_cases hcount : values.length = 1
  · obtain ⟨v, rfl⟩ := List.length_eq_one_iff.1 hcount
    exact hnext v s hb hsignal (hresult.trans (withOperand_of_ok hb hsignal))
  · exact before_of_result (hresult.trans (withOperand_of_count hb hsignal hcount)) rfl

/-! ## Where parts end -/

section

variable {targets : List String} {ws : List (String × Value)} {next : Eval (List Value)}
  {callee arguments condition body code part : Code} {bound : Nat} {f : Function}

/-- Counting and checking leave the state alone, and then the writes start. -/
theorem before_of_writes
    (h : a.result = (do
      matchCounts targets values position
      assignAll scope position ws
      next : Eval (List Value)) s)
    (hwrites : values.length = targets.length → s.store.checkAll scope ws = .ok () →
      start.Before s a.ending) : start.Before s a.ending := by
  by_cases hcount : values.length = targets.length
  · rw [bind_ok (matchCounts_of_eq hcount)] at h
    cases hcheck : s.store.checkAll scope ws with
    | error fault =>
      have hassign : assignAll scope position ws s = .error (.error ⟨.scope fault, position⟩) s :=
        bind_error (inspect_of_error hcheck)
      exact before_of_result (h.trans (bind_error hassign)) rfl
    | ok => exact hwrites hcount hcheck
  · unfold matchCounts at h
    rw [if_neg hcount] at h
    exact before_of_result h rfl

theorem before_of_arguments
    (ha : start.Within ⟨level, .code (.apply callee arguments position) scope, s⟩)
    (h : callee.Passes level scope s [.function f] s₁) :
    start.Before (ending ⟨level, .code arguments scope, s₁⟩)
      (ending ⟨level, .code (.apply callee arguments position) scope, s⟩) := by
  refine Operand.before_of_passes (.part (.arguments h)) fun values s₂ hb hsignal => ?_
  exact before_of_last ha (.apply h ⟨hb, hsignal⟩) (endsWith_apply h ⟨hb, hsignal⟩)

/-- Where the first part of a construct ends, the construct ends or its next part starts. -/
theorem before_of_first (hcode : code.first? = some part)
    (ha : start.Within ⟨level, .code code scope, s⟩) :
    start.Before (ending ⟨level, .code part scope, s⟩) (ending ⟨level, .code code scope, s⟩) := by
  have hfirst : Operand ⟨level, .code code scope, s⟩ ⟨level, .code part scope, s⟩ :=
    .part (.first hcode)
  cases code with
  | literal | name | nothing | default | loop | «break» | «continue» | function | primitive =>
    cases hcode
  | sequence first rest =>
    cases hcode
    exact hfirst.before_of_passes fun values s h hsignal =>
      before_of_last ha (.sequence ⟨h, hsignal⟩) (endsWith_sequence ⟨h, hsignal⟩)
  | both first rest =>
    cases hcode
    exact hfirst.before_of_passes fun values s h hsignal =>
      before_of_last ha (.both ⟨h, hsignal⟩) (endsWith_both ⟨h, hsignal⟩)
  | assign targets value position =>
    cases hcode
    refine hfirst.before_of_passes fun values s h hsignal =>
      before_of_writes (unlessSignal_of_ok h hsignal) fun hcount hcheck => ?_
    exact before_of_last ha (.assign ⟨h, hsignal⟩ hcount hcheck)
      (endsWith_assign ⟨h, hsignal⟩ hcount hcheck)
  | accumulate target value position =>
    cases hcode
    refine hfirst.before_of_value rfl fun operand s h hsignal hresult => ?_
    cases hcurrent : s.store.value scope target with
    | error fault =>
      have hread : readName scope target position s = .error _ s := inspect_of_error hcurrent
      exact before_of_result (hresult.trans (bind_error hread)) rfl
    | ok current =>
      have hread : readName scope target position s = .ok current s := inspect_of_ok hcurrent
      cases hsum : current.add operand with
      | error fault =>
        have hfail : operate position (current.add operand) s =
            .error (.error ⟨.operand fault, position⟩) s := by
          rw [hsum]
          rfl
        exact before_of_result (hresult.trans ((bind_ok hread).trans (bind_error hfail))) rfl
      | ok sum =>
        exact before_of_last ha (.accumulate ⟨h, hsignal⟩ hcurrent hsum)
          (endsWith_accumulate ⟨h, hsignal⟩ hcurrent hsum)
  | unary op operand position =>
    cases hcode
    refine hfirst.before_of_value rfl fun v s _ _ hresult => before_of_result hresult ?_
    exact (ending_bind fun _ _ => rfl).trans ending_operate
  | binary op left right position =>
    cases hcode
    exact hfirst.before_of_value rfl fun v s h hsignal _ =>
      before_of_last ha (.binary ⟨h, hsignal⟩) (endsWith_binary ⟨h, hsignal⟩)
  | logical decides left right position =>
    cases hcode
    refine hfirst.before_of_value rfl fun v s h hsignal hresult => ?_
    by_cases hgo : v.isTruthy = decides
    · exact before_of_result (hresult.trans (congrFun (if_pos hgo) s)) rfl
    · exact before_of_last ha (.logical ⟨h, hsignal⟩ hgo) (endsWith_logical ⟨h, hsignal⟩ hgo)
  | branch condition yes no position =>
    cases hcode
    refine hfirst.before_of_value rfl fun v s h hsignal _ => ?_
    cases htest : v.isTruthy with
    | true => exact before_of_last ha (.yes ⟨h, hsignal⟩ htest) (endsWith_yes ⟨h, hsignal⟩ htest)
    | false => exact before_of_last ha (.no ⟨h, hsignal⟩ htest) (endsWith_no ⟨h, hsignal⟩ htest)
  | «return» operand =>
    cases hcode
    exact hfirst.before_of_passes fun values s h hsignal =>
      before_of_result (unlessSignal_of_ok h hsignal) rfl
  | apply callee arguments position =>
    cases hcode
    refine hfirst.before_of_value rfl fun v s₁ h hsignal hresult => ?_
    cases v with
    | function f =>
      exact before_of_part ha (.arguments ⟨h, hsignal⟩) (before_of_arguments ha ⟨h, hsignal⟩)
    | _ => exact before_of_result hresult rfl

theorem before_of_body
    (ha : start.Within ⟨level, .rounds condition body scope position (bound + 1), s⟩) {test : Value}
    (h : condition.Passes level scope s [test] s₁) (htest : test.isTruthy = true) :
    start.Before (ending ⟨level, .code body scope, s₁⟩)
      (ending ⟨level, .rounds condition body scope position (bound + 1), s⟩) := by
  have hbody : Starts ⟨level, .rounds condition body scope position (bound + 1), s⟩
      ⟨level, .code body scope, s₁⟩ := .body h htest
  refine hbody.before_of_ok fun values s₂ hb => ?_
  by_cases hgo : Value.goesOn values = true
  · exact before_of_last ha (.round h htest hb hgo) (endsWith_round h htest hb hgo)
  · have hresult : result ⟨level, .rounds condition body scope position (bound + 1), s⟩ =
        afterBody (condition.run (level + 1) scope) (body.run (level + 1) scope) position bound
          values s₂ := (iterate_of_truthy h.1 h.2 htest).trans (bind_ok hb)
    refine before_of_result hresult ?_
    unfold afterBody
    split
    · rfl
    · rfl
    · next hbreak hreturn => exact absurd (Value.goesOn_of_ne hbreak hreturn) hgo

theorem before_of_condition
    (ha : start.Within ⟨level, .rounds condition body scope position (bound + 1), s⟩) :
    start.Before (ending ⟨level, .code condition scope, s⟩)
      (ending ⟨level, .rounds condition body scope position (bound + 1), s⟩) := by
  refine Operand.before_of_value .condition rfl fun test s₁ h hsignal _ => ?_
  cases htest : test.isTruthy with
  | true =>
    exact before_of_part ha (.body ⟨h, hsignal⟩ htest) (before_of_body ha ⟨h, hsignal⟩ htest)
  | false => exact before_of_result (iterate_of_falsy h hsignal htest) rfl

theorem of_writes (h : (Task.writes scope position ws).perform level s = .ok values s₁) :
    assignNames scope position ws s = .ok () s₁ := by
  obtain ⟨_, _, hassign, hreturn⟩ := ok_of_bind h
  cases hreturn
  exact hassign

theorem before_of_parameters {caller : Scope} {frame : FrameId} {s₂ : State}
    (ha : start.Within ⟨level, .call f values caller position, s⟩)
    (hcount : values.length = f.arity) (hframe : newFrame f.captured s = .ok frame s₁)
    (hlocals : assignNames ⟨frame, caller.chain⟩ position (f.locals.map (·, .nil)) s₁ = .ok () s₂) :
    start.Before
      (ending ⟨level, .writes ⟨frame, caller.chain⟩ position (f.parameters.zip values), s₂⟩)
      (ending ⟨level, .call f values caller position, s⟩) := by
  have hparameters : Starts ⟨level, .call f values caller position, s⟩ _ :=
    .parameters hcount hframe hlocals
  refine hparameters.before_of_ok fun _ s₃ h => ?_
  have hwrites := of_writes h
  cases level with
  | zero =>
    -- The bound is reached before the body is entered.
    refine before_of_result ((call_of_newFrame hcount hframe).trans (bind_ok hlocals)) ?_
    rw [bind_ok hwrites]
    rfl
  | succ level =>
    have henter : enter f values caller.chain position s = .ok ⟨frame, caller.chain⟩ s₃ :=
      (bind_ok hframe).trans ((bind_ok hlocals).trans (bind_ok hwrites))
    exact before_of_last ha (.enter hcount henter)
      ⟨_, resumes_enter hcount henter, fun _ _ => rfl⟩

end

/-- A part never ends after the whole. -/
theorem Starts.before (h : a.Starts b) (ha : start.Within a) :
    start.Before b.ending a.ending := by
  have hlast : a.EndsWith b → start.Before b.ending a.ending := fun h => h.ending_eq ▸ .refl
  have hstep := h
  cases h with
  | first h => exact before_of_first h ha
  | sequence h => exact hlast (endsWith_sequence h)
  | both h => exact hlast (endsWith_both h)
  | assign h hcount hcheck => exact hlast (endsWith_assign h hcount hcheck)
  | accumulate h hcurrent hsum => exact hlast (endsWith_accumulate h hcurrent hsum)
  | @default _ targets value position _ _ h =>
    refine Operand.before_of_passes (.part (.default h)) fun values s hvalue hsignal => ?_
    refine before_of_writes
      ((Code.run_default.trans (if_neg (Bool.eq_false_iff.1 h))).trans
        (unlessSignal_of_ok hvalue hsignal)) fun hcount hcheck => ?_
    exact before_of_last ha (.defaultWrites h ⟨hvalue, hsignal⟩ hcount rfl hcheck)
      (endsWith_default h ⟨hvalue, hsignal⟩ hcount rfl hcheck)
  | defaultWrites h hvalue hcount hwrites hcheck =>
    exact hlast (endsWith_default h hvalue hcount hwrites hcheck)
  | binary h => exact hlast (endsWith_binary h)
  | logical h hgo => exact hlast (endsWith_logical h hgo)
  | yes h htest => exact hlast (endsWith_yes h htest)
  | no h htest => exact hlast (endsWith_no h htest)
  | loop => exact hlast (endsWith_of_eq rfl)
  | condition => exact before_of_condition ha
  | body h htest => exact before_of_body ha h htest
  | round h htest hbody hgo => exact hlast (endsWith_round h htest hbody hgo)
  | arguments h => exact before_of_arguments ha h
  | apply h harguments => exact hlast (endsWith_apply h harguments)
  | locals hcount hframe =>
    refine hstep.before_of_ok fun _ s₂ h => ?_
    exact before_of_part ha (.parameters hcount hframe (of_writes h))
      (before_of_parameters ha hcount hframe (of_writes h))
  | parameters hcount hframe hlocals => exact before_of_parameters ha hcount hframe hlocals
  | enter hcount henter => exact hlast ⟨_, resumes_enter hcount henter, fun _ _ => rfl⟩
  | write h => exact hlast (endsWith_write h)

/-- Nothing that belongs to a task comes before its start or after its end. -/
theorem Within.before (h : start.Within b) (hs : b.At s) :
    start.Before start.state s ∧ start.Before s start.ending := by
  have hcomes : start.Before start.state b.state := by
    clear hs
    induction h with
    | refl => exact .refl
    | tail ha hstep ih => exact .tail ih (.comes ha hstep)
  have hends : start.Before b.ending start.ending := by
    clear hs hcomes
    induction h with
    | refl => exact .refl
    | tail ha hstep ih => exact .trans (hstep.before ha) ih
  rcases hs with rfl | ⟨values, hresult⟩ | ⟨e, hresult⟩
  · exact ⟨hcomes, .head (.ends h) hends⟩
  · rw [ending_of_ok hresult] at hends
    exact ⟨.tail hcomes (ending_of_ok hresult ▸ .ends h), hends⟩
  · rw [ending_of_error hresult] at hends
    exact ⟨.tail hcomes (ending_of_error hresult ▸ .ends h), hends⟩

end Moment

namespace Session

/-! ## Time in a session -/

/-- A step of the time of sessions: a run prepares its code, evaluates it and ends, or time passes
between two runs. -/
inductive Follows : State → State → Prop
  | prepares {a} (ha : Reachable a) (display : Display) (source : String) :
    Follows a.state (ending (prepare display source a)).state
  | evaluates {a display source code b level s s'} (ha : Reachable a)
    (h : prepare display source a = .ok code b)
    (hs : Moment.Follows ⟨level, .code code .global, b.state⟩ s s') : Follows s s'
  | runs {a} (ha : Reachable a) (fuel : Nat) (display : Display) (source : String) :
    Follows a.state (ending (run fuel display source a)).state
  | later {a} (ha : Reachable a) (clock : Clock) :
    Follows a.state { a.state with output := "", clock := clock }

/-- The second state comes after the first, in the same run or in a later one, or is the same. -/
def Later : State → State → Prop :=
  Relation.ReflTransGen Follows

variable {a b : Session} {display : Display} {source : String} {code : Code} {level : Nat}
  {m : Moment} {s s' : State}

theorem later_of_before (ha : a.Reachable) (h : prepare display source a = .ok code b)
    (hs : Moment.Before ⟨level, .code code .global, b.state⟩ s s') : Later s s' :=
  Relation.ReflTransGen.mono (fun _ _ hstep => .evaluates ha h hstep) s s' hs

/-- How a run ends whose code is prepared. -/
theorem run_of_prepare (h : prepare display source a = .ok code b) (fuel : Nat) :
    run fuel display source a =
      match code.run fuel .global b.state with
      | .ok values s => .ok (Eval.returned values) { b with state := s }
      | .error e s => .error (e.map .runtime) { b with state := s } := by
  rcases run_cases fuel display source a with ⟨e, b', herror, -⟩ | ⟨code', b', hok, hrun⟩
  · cases herror.symm.trans h
  · cases hok.symm.trans h
    cases heval : code.run fuel .global b.state with
    | ok values s =>
      rw [heval] at hrun
      exact hrun
    | error e s =>
      rw [heval] at hrun
      exact hrun

theorem ending_run (h : prepare display source a = .ok code b) (fuel : Nat) :
    (ending (run fuel display source a)).state = ending (code.run fuel .global b.state) := by
  rw [run_of_prepare h]
  cases code.run fuel .global b.state with
  | ok values s => rfl
  | error e s => rfl

/-- The code of a run is fine to evaluate. -/
theorem fine_of_prepare (ha : a.state.store.Sound) (h : prepare display source a = .ok code b) :
    Moment.Fine ⟨level, .code code .global, b.state⟩ := by
  obtain ⟨hb, hready, -⟩ := ready_of_prepare ha h
  exact ⟨hb, hready⟩

/-- All that happens in a run comes after the session before it and before the session after it. -/
theorem later_of_within (ha : a.Reachable) (h : prepare display source a = .ok code b)
    (hm : Moment.Within ⟨level, .code code .global, b.state⟩ m) (hs : m.At s) :
    Later a.state s ∧ Later s (ending (run (level + 1) display source a)).state := by
  obtain ⟨hbefore, hafter⟩ := hm.before hs
  have hprepared : Later a.state b.state := by
    have hstep := Follows.prepares ha display source
    rw [h] at hstep
    exact .single hstep
  refine ⟨hprepared.trans (later_of_before ha h hbefore), ?_⟩
  rw [ending_run h]
  exact later_of_before ha h hafter

theorem ending_prepare (display : Display) (source : String) (a : Session) :
    (ending (prepare display source a)).state.store = a.state.store := by
  cases h : prepare display source a with
  | ok code b => exact (leavesStore_prepare display source).ok h
  | error e b => exact (leavesStore_prepare display source).error h

/-- What each step within a task does to the store, each step of a session does, if leaving the
store alone counts too. -/
theorem Follows.of_moments {R : Store → Store → Prop} (hrefl : ∀ s, R s s)
    (hmoment : ∀ {start : Moment} {s s' : State}, start.Fine → start.Follows s s' →
      R s.store s'.store) (h : Follows s s') : R s.store s'.store := by
  cases h with
  | prepares ha display source =>
    rw [ending_prepare]
    exact hrefl _
  | evaluates ha hprepare hs => exact hmoment (fine_of_prepare ha.sound hprepare) hs
  | @runs a ha fuel display source =>
    rcases run_cases fuel display source a with ⟨e, b, h, hrun⟩ | ⟨code, b, h, hrun⟩
    · rw [hrun]
      show R a.state.store b.state.store
      rw [(leavesStore_prepare display source).error h]
      exact hrefl _
    · have hprepared : b.state.store = a.state.store := (leavesStore_prepare display source).ok h
      rw [← hprepared, ending_run h]
      cases fuel with
      | zero => exact hrefl _
      | succ level => exact hmoment (fine_of_prepare ha.sound h) (.ends .refl)
  | later => exact hrefl _

end Session

end Scripting

import Scripting.Proofs.Writes
import Scripting.Proofs.Moments

/-!
# Proofs: what is done after a part

Whatever a task starts, the rest of the task waits for it: it is given the values of the part and
goes on in the state in which the part ends. So an error of a part is an error of the whole.

The parts of a construct other than the body of a loop are its operands. What waits for an operand
only goes on if the operand yields no signal; otherwise the signal is the result of the construct.
-/

namespace Scripting

open Eval

/-! ## How computations end -/

section

variable {ε σ α β : Type}

/-- The state in which a computation ends, be it with an error. -/
def ending : EStateM.Result ε σ α → σ
  | .ok _ s | .error _ s => s

/-- What follows the first computation leaves the state alone. -/
theorem ending_bind {m : EStateM ε σ α} {f : α → EStateM ε σ β} {s : σ}
    (hf : ∀ a s, ending (f a s) = s) : ending ((m >>= f) s) = ending (m s) := by
  cases h : m s with
  | ok a s₁ =>
    rw [bind_ok h]
    exact hf a s₁
  | error e s₁ =>
    rw [bind_error h]
    rfl

end

namespace Eval

variable {part : Eval (List Value)}

theorem unlessSignal_pure (part : Eval (List Value)) : unlessSignal part pure = part := by
  unfold unlessSignal
  simp only [ite_self, bind_pure]

/-! ## Rounds of loops -/

section

variable {condition body : Eval (List Value)} {position : Position} {bound : Nat}
  {s s₁ s₂ : State} {test : Value} {values : List Value} {e : Stop RuntimeError}

theorem iterate_of_falsy (h : condition s = .ok [test] s₁)
    (hsignal : Value.isSignal [test] = false) (htest : test.isTruthy = false) :
    iterate condition body position (bound + 1) s = .ok [.bool true] s₁ := by
  refine (withOperand_of_ok h hsignal).trans ?_
  rw [htest]
  rfl

/-- What is done with the values of the body. -/
def afterBody (condition body : Eval (List Value)) (position : Position) (bound : Nat)
    (values : List Value) : Eval (List Value) :=
  match values with
  | [.control .breaking] => return [.bool false]
  | [.control (.returning _)] => return values
  | _ => iterate condition body position bound

theorem iterate_of_truthy (h : condition s = .ok [test] s₁)
    (hsignal : Value.isSignal [test] = false) (htest : test.isTruthy = true) :
    iterate condition body position (bound + 1) s =
      (body >>= afterBody condition body position bound) s₁ := by
  refine (withOperand_of_ok h hsignal).trans ?_
  rw [htest]
  rfl

theorem afterBody_of_goesOn (h : Value.goesOn values = true) :
    afterBody condition body position bound values = iterate condition body position bound := by
  unfold afterBody
  split
  · cases h
  · cases h
  · rfl

end

end Eval

namespace Moment

variable {a b c : Moment} {s : State} {values : List Value} {e : Stop RuntimeError}

/-- The state in which the task ends. -/
def ending (m : Moment) : State :=
  Scripting.ending m.result

theorem ending_of_ok (h : a.result = .ok values s) : a.ending = s := by
  rw [ending, h]
  rfl

theorem ending_of_error (h : a.result = .error e s) : a.ending = s := by
  rw [ending, h]
  rfl

/-- The task ends in this state. -/
theorem at_ending (m : Moment) : m.At m.ending := by
  cases h : m.result with
  | ok values s => exact Or.inr (Or.inl ⟨values, ending_of_ok h ▸ h⟩)
  | error e s => exact Or.inr (Or.inr ⟨e, ending_of_error h ▸ h⟩)

/-! ## Operands -/

/-- The task of the second moment is an operand of the construct of the first: any part of it but
the body of a loop. All rounds of a loop together count as an operand of it, and so do those that
remain after a round. -/
inductive Operand : Moment → Moment → Prop
  | part {level code part scope s s₁}
    (h : Starts ⟨level, .code code scope, s⟩ ⟨level, .code part scope, s₁⟩) :
    Operand ⟨level, .code code scope, s⟩ ⟨level, .code part scope, s₁⟩
  | loop {level condition body scope position s} :
    Operand ⟨level, .code (.loop condition body position) scope, s⟩
      ⟨level, .rounds condition body scope position level, s⟩
  | condition {level condition body scope position bound s} :
    Operand ⟨level, .rounds condition body scope position (bound + 1), s⟩
      ⟨level, .code condition scope, s⟩
  | round {level condition body scope position bound s s₁}
    (h : Starts ⟨level, .rounds condition body scope position (bound + 1), s⟩
      ⟨level, .rounds condition body scope position bound, s₁⟩) :
    Operand ⟨level, .rounds condition body scope position (bound + 1), s⟩
      ⟨level, .rounds condition body scope position bound, s₁⟩

theorem Operand.starts (h : a.Operand b) : a.Starts b := by
  cases h with
  | part h => exact h
  | loop => exact .loop
  | condition => exact .condition
  | round h => exact h

/-- The result of the last operand is that of the construct. -/
theorem unless_of_last (h : a.result = b.result) :
    ∃ next, a.result = unlessSignal (b.task.perform b.level) next b.state := by
  refine ⟨pure, ?_⟩
  rw [unlessSignal_pure]
  exact h

/-- The first operand of a construct. -/
theorem unless_of_first {level : Nat} {code part : Code} {scope : Scope} {s : State}
    (h : code.first? = some part) :
    ∃ next, code.run (level + 1) scope s = unlessSignal (part.run (level + 1) scope) next s := by
  cases code <;> cases h <;> exact ⟨_, rfl⟩

/-- A loop that goes on after a round ends as its other rounds do. -/
theorem result_of_round {level bound : Nat} {condition body : Code} {scope : Scope}
    {position : Position} {test : Value} {s₁ s₂ : State}
    (h : condition.Passes level scope s [test] s₁) (htest : test.isTruthy = true)
    (hbody : body.run (level + 1) scope s₁ = .ok values s₂) (hgo : Value.goesOn values = true) :
    result ⟨level, .rounds condition body scope position (bound + 1), s⟩ =
      result ⟨level, .rounds condition body scope position bound, s₂⟩ := by
  refine (iterate_of_truthy h.1 h.2 htest).trans ?_
  rw [bind_ok hbody, afterBody_of_goesOn hgo]
  rfl

/-- What waits for an operand goes on unless the operand yields a signal. -/
theorem Operand.unless (h : a.Operand b) :
    ∃ next, a.result = unlessSignal (b.task.perform b.level) next b.state := by
  cases h with
  | part h =>
    cases h with
    | first h => exact unless_of_first h
    | sequence h => exact unless_of_last (unlessSignal_of_ok h.1 h.2)
    | both h => exact ⟨_, unlessSignal_of_ok h.1 h.2⟩
    | default h => exact ⟨_, Code.run_default.trans (if_neg (Bool.eq_false_iff.1 h))⟩
    | binary h => exact ⟨_, withOperand_of_ok h.1 h.2⟩
    | logical h hgo => exact unless_of_last ((withOperand_of_ok h.1 h.2).trans (if_neg hgo ▸ rfl))
    | yes h htest => exact unless_of_last ((withOperand_of_ok h.1 h.2).trans (if_pos htest ▸ rfl))
    | no h htest => exact unless_of_last ((withOperand_of_ok h.1 h.2).trans (by rw [htest]; rfl))
    | arguments h => exact ⟨_, withOperand_of_ok h.1 h.2⟩
  | loop => exact unless_of_last rfl
  | condition => exact ⟨_, rfl⟩
  | round h =>
    cases h with
    | round h htest hbody hgo => exact unless_of_last (result_of_round h htest hbody hgo)

/-- A signal of an operand is the result of the construct, in the state that the operand left. -/
theorem Operand.signal (h : a.Operand b) (hb : b.result = .ok values s)
    (hsignal : Value.isSignal values = true) : a.result = .ok values s := by
  obtain ⟨next, hnext⟩ := h.unless
  rw [hnext]
  exact unlessSignal_of_signal hb hsignal

/-! ## All parts -/

/-- Once the task of the second moment is done, the rest of the first one is `next`. -/
def Resumes (a b : Moment) (next : List Value → Eval (List Value)) : Prop :=
  a.result = (b.task.perform b.level >>= next) b.state

/-- What is left of the first task after the second one leaves the state alone. -/
def EndsWith (a b : Moment) : Prop :=
  ∃ next, a.Resumes b next ∧ ∀ values s, Scripting.ending (next values s) = s

theorem EndsWith.ending_eq (h : a.EndsWith b) : a.ending = b.ending := by
  obtain ⟨next, hnext, hquiet⟩ := h
  unfold ending
  rw [hnext]
  exact ending_bind hquiet

theorem endsWith_of_eq (h : a.result = b.result) : a.EndsWith b := by
  refine ⟨pure, ?_, fun _ _ => rfl⟩
  unfold Resumes
  rw [bind_pure]
  exact h

theorem endsWith_of_unless {next : List Value → Eval (List Value)}
    (h : a.result = unlessSignal (b.task.perform b.level) next b.state)
    (hnext : ∀ values s, Scripting.ending (next values s) = s) : a.EndsWith b := by
  refine ⟨_, h, fun values s => ?_⟩
  cases hsignal : Value.isSignal values with
  | true => rfl
  | false => exact hnext values s

theorem bind_of_eq {α β : Type} {m m' : Eval α} {f : α → Eval β} (h : m s = m' s) :
    (m >>= f) s = (m' >>= f) s := by
  cases hm : m s with
  | ok x s₁ => rw [bind_ok hm, bind_ok (h.symm.trans hm)]
  | error e s₁ => rw [bind_error hm, bind_error (h.symm.trans hm)]

theorem ending_operate {position : Position} {result : Except OperandFault Value} :
    Scripting.ending (operate position result s) = s := by
  cases result <;> rfl

theorem ending_inspect {α : Type} {position : Position} {look : Store → Except ScopeFault α} :
    Scripting.ending (inspect position look s) = s := by
  cases hlook : look s.store with
  | ok a => rw [inspect_of_ok hlook]; rfl
  | error fault => rw [inspect_of_error hlook]; rfl

theorem ending_readNames {scope : Scope} {position : Position} {names : List String} :
    Scripting.ending ((names.mapM fun x => readName scope x position) s) = s := by
  induction names generalizing s with
  | nil => rfl
  | cons x names ih =>
    rw [List.mapM_cons, ending_bind fun v s => ?_]
    · exact ending_inspect
    · exact (ending_bind fun _ _ => rfl).trans ih

section

variable {level bound : Nat} {scope : Scope} {position : Position} {targets : List String}
  {left right condition body yes no callee arguments value : Code} {op : BinaryOp}
  {ws : List (String × Value)} {v : Value} {s₁ s₂ : State}

theorem endsWith_sequence (h : left.Passes level scope s values s₁) :
    EndsWith ⟨level, .code (.sequence left right) scope, s⟩ ⟨level, .code right scope, s₁⟩ :=
  endsWith_of_eq (unlessSignal_of_ok h.1 h.2)

theorem endsWith_both (h : left.Passes level scope s values s₁) :
    EndsWith ⟨level, .code (.both left right) scope, s⟩ ⟨level, .code right scope, s₁⟩ :=
  endsWith_of_unless (unlessSignal_of_ok h.1 h.2) fun _ _ => rfl

theorem ending_single (next : Value → Eval (List Value))
    (hnext : ∀ v s, Scripting.ending (next v s) = s) :
    Scripting.ending ((single position values >>= next) s) = s := by
  match values with
  | [v] => exact hnext v s
  | [] => rfl
  | _ :: _ :: _ => rfl

theorem endsWith_binary (h : left.Passes level scope s [v] s₁) :
    EndsWith ⟨level, .code (.binary op left right position) scope, s⟩
      ⟨level, .code right scope, s₁⟩ :=
  endsWith_of_unless (withOperand_of_ok h.1 h.2) fun _ _ =>
    ending_single _ fun _ _ => (ending_bind fun _ _ => rfl).trans ending_operate

theorem endsWith_logical {decides : Bool} (h : left.Passes level scope s [v] s₁)
    (hgo : v.isTruthy ≠ decides) :
    EndsWith ⟨level, .code (.logical decides left right position) scope, s⟩
      ⟨level, .code right scope, s₁⟩ :=
  endsWith_of_eq ((withOperand_of_ok h.1 h.2).trans (congrFun (if_neg hgo) s₁))

theorem endsWith_yes (h : condition.Passes level scope s [v] s₁) (htest : v.isTruthy = true) :
    EndsWith ⟨level, .code (.branch condition yes no position) scope, s⟩
      ⟨level, .code yes scope, s₁⟩ :=
  endsWith_of_eq ((withOperand_of_ok h.1 h.2).trans (congrFun (if_pos htest) s₁))

theorem endsWith_no (h : condition.Passes level scope s [v] s₁) (htest : v.isTruthy = false) :
    EndsWith ⟨level, .code (.branch condition yes no position) scope, s⟩
      ⟨level, .code no scope, s₁⟩ :=
  endsWith_of_eq
    ((withOperand_of_ok h.1 h.2).trans (congrFun (if_neg (Bool.eq_false_iff.1 htest)) s₁))

theorem endsWith_round (h : condition.Passes level scope s [v] s₁) (htest : v.isTruthy = true)
    (hbody : body.run (level + 1) scope s₁ = .ok values s₂) (hgo : Value.goesOn values = true) :
    EndsWith ⟨level, .rounds condition body scope position (bound + 1), s⟩
      ⟨level, .rounds condition body scope position bound, s₂⟩ :=
  endsWith_of_eq (result_of_round h htest hbody hgo)

/-! ### Writes -/

theorem resumes_writes {next : Eval (List Value)}
    (h : a.result = (assignNames scope position ws >>= fun _ => next) s) :
    a.Resumes ⟨level, .writes scope position ws, s⟩ fun _ => next := by
  unfold Resumes Task.perform
  rw [h, bind_assoc]
  rfl

theorem matchCounts_of_eq (h : values.length = targets.length) :
    matchCounts targets values position s = .ok () s := by
  unfold matchCounts
  rw [if_pos h]
  rfl

theorem assignAll_of_check (h : s.store.checkAll scope ws = .ok ()) :
    assignAll scope position ws s = assignNames scope position ws s :=
  bind_ok (inspect_of_ok h)

theorem endsWith_assign (h : value.Passes level scope s values s₁)
    (hcount : values.length = targets.length)
    (hcheck : s₁.store.checkAll scope (targets.zip values) = .ok ()) :
    EndsWith ⟨level, .code (.assign targets value position) scope, s⟩
      ⟨level, .writes scope position (targets.zip values), s₁⟩ := by
  refine ⟨fun _ => pure values, resumes_writes ((unlessSignal_of_ok h.1 h.2).trans ?_),
    fun _ _ => rfl⟩
  exact (bind_ok (matchCounts_of_eq hcount)).trans (bind_of_eq (assignAll_of_check hcheck))

theorem endsWith_accumulate {target : String} {operand current sum : Value}
    (h : value.Passes level scope s [operand] s₁)
    (hcurrent : s₁.store.value scope target = .ok current)
    (hsum : current.add operand = .ok sum) :
    EndsWith ⟨level, .code (.accumulate target value position) scope, s⟩
      ⟨level, .writes scope position [(target, sum)], s₁⟩ := by
  have hread : readName scope target position s₁ = .ok current s₁ := inspect_of_ok hcurrent
  refine ⟨fun _ => pure [sum], resumes_writes ((withOperand_of_ok h.1 h.2).trans
    ((bind_ok hread).trans ?_)), fun _ _ => rfl⟩
  rw [hsum]
  unfold assignNames assignNames
  rw [bind_assoc]
  rfl

theorem endsWith_default
    (h : (s.store.valuesOrNil scope targets).all (fun v => !v.isNil) = false)
    (hvalue : value.Passes level scope s values s₁) (hcount : values.length = targets.length)
    (hws : ws = Store.defaultWrites targets (s.store.valuesOrNil scope targets) values)
    (hcheck : s₁.store.checkAll scope ws = .ok ()) :
    EndsWith ⟨level, .code (.default targets value position) scope, s⟩
      ⟨level, .writes scope position ws, s₁⟩ := by
  subst hws
  refine ⟨fun _ => targets.mapM fun x => readName scope x position,
    resumes_writes (Code.run_default.trans ?_), fun _ _ => ending_readNames⟩
  rw [if_neg (Bool.eq_false_iff.1 h), unlessSignal_of_ok hvalue.1 hvalue.2, fillIn,
    bind_ok (matchCounts_of_eq hcount)]
  exact bind_of_eq (assignAll_of_check hcheck)

theorem endsWith_write {x : String} (h : assignName scope position x v s = .ok () s₁) :
    EndsWith ⟨level, .writes scope position ((x, v) :: ws), s⟩
      ⟨level, .writes scope position ws, s₁⟩ := by
  refine endsWith_of_eq ?_
  show ((assignName scope position x v >>= fun _ => assignNames scope position ws) >>= _) s = _
  rw [bind_assoc, bind_ok h]
  rfl

/-! ### Calls -/

theorem endsWith_apply {f : Function} (h : callee.Passes level scope s [.function f] s₁)
    (harguments : arguments.Passes level scope s₁ values s₂) :
    EndsWith ⟨level, .code (.apply callee arguments position) scope, s⟩
      ⟨level, .call f values scope position, s₂⟩ :=
  endsWith_of_eq ((withOperand_of_ok h.1 h.2).trans
    (unlessSignal_of_ok harguments.1 harguments.2))

/-- What a call does once its frame is there. -/
theorem call_of_newFrame {f : Function} {caller : Scope} {frame : FrameId}
    (hcount : values.length = f.arity) (hframe : newFrame f.captured s = .ok frame s₁) :
    call (Code.run level) f values caller position s = (do
      assignNames ⟨frame, caller.chain⟩ position (f.locals.map (·, .nil))
      assignNames ⟨frame, caller.chain⟩ position (f.parameters.zip values)
      return returned (← Code.run level f.body ⟨frame, caller.chain⟩)) s₁ := by
  unfold call enter
  rw [if_pos hcount, bind_assoc, bind_ok hframe]
  simp only [bind_assoc, pure_bind]

theorem resumes_enter {f : Function} {caller : Scope} (hcount : values.length = f.arity)
    (henter : enter f values caller.chain position s = .ok scope s₁) :
    Resumes ⟨level + 1, .call f values caller position, s⟩ ⟨level, .code f.body scope, s₁⟩
      fun values => pure (returned values) :=
  (congrFun (if_pos hcount) s).trans (bind_ok henter)

end

/-- What waits for a part is given its values and goes on where it ends. -/
theorem Starts.resumes (h : a.Starts b) : ∃ next, a.Resumes b next := by
  have hoperand : a.Operand b → ∃ next, a.Resumes b next := fun h => by
    obtain ⟨next, hnext⟩ := h.unless
    exact ⟨_, hnext⟩
  have hlast : a.EndsWith b → ∃ next, a.Resumes b next := fun ⟨next, hnext, _⟩ => ⟨next, hnext⟩
  cases h with
  | first h => exact hoperand (.part (.first h))
  | sequence h => exact hlast (endsWith_sequence h)
  | both h => exact hlast (endsWith_both h)
  | assign h hcount hcheck => exact hlast (endsWith_assign h hcount hcheck)
  | accumulate h hcurrent hsum => exact hlast (endsWith_accumulate h hcurrent hsum)
  | default h => exact hoperand (.part (.default h))
  | defaultWrites h hvalue hcount hwrites hcheck =>
    exact hlast (endsWith_default h hvalue hcount hwrites hcheck)
  | binary h => exact hlast (endsWith_binary h)
  | logical h hgo => exact hlast (endsWith_logical h hgo)
  | yes h htest => exact hlast (endsWith_yes h htest)
  | no h htest => exact hlast (endsWith_no h htest)
  | loop => exact hoperand .loop
  | condition => exact hoperand .condition
  | body h htest => exact ⟨_, iterate_of_truthy h.1 h.2 htest⟩
  | round h htest hbody hgo => exact hlast (endsWith_round h htest hbody hgo)
  | arguments h => exact hoperand (.part (.arguments h))
  | apply h harguments => exact hlast (endsWith_apply h harguments)
  | locals hcount hframe => exact ⟨_, resumes_writes (call_of_newFrame hcount hframe)⟩
  | parameters hcount hframe hlocals =>
    exact ⟨_, resumes_writes ((call_of_newFrame hcount hframe).trans (bind_ok hlocals))⟩
  | enter hcount henter => exact ⟨_, resumes_enter hcount henter⟩
  | write h => exact hlast (endsWith_write h)

/-- An error of a part is an error of the whole, in the state that the part left. -/
theorem Starts.error (h : a.Starts b) (hb : b.result = .error e s) : a.result = .error e s := by
  obtain ⟨next, hnext⟩ := h.resumes
  rw [hnext]
  exact bind_error hb

/-- An error at any moment ends all that it belongs to. -/
theorem Within.error (h : a.Within b) (hb : b.result = .error e s) : a.result = .error e s := by
  induction h with
  | refl => exact hb
  | tail _ hstep ih => exact ih (hstep.error hb)

end Moment

end Scripting

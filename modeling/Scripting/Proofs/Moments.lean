import Mathlib.Logic.Relation
import Scripting.Proofs.Preservation

/-!
# Proofs: the moments of a run

A moment of a run is a task that the evaluator starts: to evaluate code, to go round a loop, to call
a function, or to write to variables. `Starts` says which tasks a task starts and in which states,
one constructor for each place of the evaluator; what happens within a moment is reached from it by
`Starts`. `Starts.leads` is the step lemma of all invariants of running programs, and `Within.leads`
carries it along.
-/

namespace Scripting

open Eval

/-! ## Tasks -/

/-- What the evaluator may have to do. -/
inductive Task where
  /-- Evaluate code. -/
  | code (code : Code) (scope : Scope)
  /-- Go round a loop at most `bound` times. -/
  | rounds (condition body : Code) (scope : Scope) (position : Position) (bound : Nat)
  /-- Call a function from a scope. -/
  | call (f : Function) (values : List Value) (caller : Scope) (position : Position)
  /-- Write to variables that have been checked before, or to those of a call. -/
  | writes (scope : Scope) (position : Position) (ws : List (String × Value))

namespace Task

/-- Does the task. The level bounds the calls inside calls and the rounds of each loop. -/
def perform (level : Nat) : Task → Eval (List Value)
  | code c scope => c.run (level + 1) scope
  | rounds condition body scope position bound =>
    iterate (condition.run (level + 1) scope) (body.run (level + 1) scope) position bound
  | call f values caller position => Eval.call (Code.run level) f values caller position
  | writes scope position ws => do
    assignNames scope position ws
    return []

/-- The task may be done with the store. -/
def Ready (s : Store) : Task → Prop
  | code c scope => c.Ready s scope
  | rounds condition body scope _ _ => condition.Ready s scope ∧ body.Ready s scope
  | call f values _ _ => f.Sound s ∧ Value.AreData s values
  | writes scope _ ws => scope.frame < s.frames.size ∧ ∀ w ∈ ws, w.2.IsData s

/-- The frames that were there before and may get names. -/
def Opens (s : Store) : Task → FrameId → Prop
  | code _ scope | rounds _ _ scope _ _ => scope.opened
  | call _ _ _ _ => fun _ => False
  | writes scope _ ws => fun frame =>
    frame = scope.frame ∧ ∃ w ∈ ws, s.contains scope w.1 = false

/-- What the task may yield. -/
def Yields (s : Store) (values : List Value) : Task → Prop
  | code c _ => Value.Yielded s (c.escapes = true) values
  | rounds condition _ _ _ _ => Value.Yielded s (condition.escapes = true) values
  | call _ _ _ _ => Value.AreData s values
  | writes _ _ _ => values = []

/-- The scope in which the task is done. -/
def scope : Task → Scope
  | code _ scope | rounds _ _ scope _ _ | call _ _ scope _ | writes scope _ _ => scope

/-- The names that the task itself writes to. -/
def written : Task → List String
  | writes _ _ ws => ws.map Prod.fst
  | _ => []

/-- All code of the task satisfies `P`, the bodies of functions left out. -/
def Every (P : Code → Prop) : Task → Prop
  | code c _ => c.Every P
  | rounds condition body _ _ _ => condition.Every P ∧ body.Every P
  | call _ _ _ _ | writes _ _ _ => True

theorem Every.mono {P Q : Code → Prop} (hPQ : ∀ code, P code → Q code) {task : Task}
    (h : task.Every P) : task.Every Q := by
  cases task with
  | code => exact Code.Every.mono hPQ h
  | rounds => exact ⟨Code.Every.mono hPQ h.1, Code.Every.mono hPQ h.2⟩
  | call | writes => trivial

end Task

/-! ## Moments -/

/-- A task that is about to be done. -/
structure Moment where
  /-- How deep calls may still go, and how often a loop may go round. -/
  level : Nat
  /-- What is to be done. -/
  task : Task
  /-- The state before. -/
  state : State

namespace Moment

/-- How the task ends. -/
def result (m : Moment) : EStateM.Result (Stop RuntimeError) State (List Value) :=
  m.task.perform m.level m.state

/-- The state is the one before the task or the one in which it ends, be it with an error. -/
def At (m : Moment) (s : State) : Prop :=
  s = m.state ∨ (∃ values, m.result = .ok values s) ∨ ∃ e, m.result = .error e s

end Moment

namespace Code

/-- The code yields values that are no signal, so the construct around it goes on. -/
def Passes (level : Nat) (code : Code) (scope : Scope) (s : State) (values : List Value)
    (s' : State) : Prop :=
  code.run (level + 1) scope s = .ok values s' ∧ Value.isSignal values = false

end Code

theorem Code.evaluate_default
    {call : Function → List Value → Scope → Position → Eval (List Value)} {bound : Nat}
    {targets : List String} {value : Code} {position : Position} {scope : Scope} {s : State} :
    (Code.default targets value position).evaluate call bound scope s =
      if (s.store.valuesOrNil scope targets).all fun v => !v.isNil then
        .ok (s.store.valuesOrNil scope targets) s
      else unlessSignal (value.evaluate call bound scope)
        (fillIn scope position targets (s.store.valuesOrNil scope targets)) s := by
  have hget : (get : Eval State) s = .ok s s := rfl
  refine (bind_ok hget).trans ?_
  unfold Store.valuesOrNil
  split
  · rfl
  · rfl

theorem Code.run_default {level : Nat} {targets : List String} {value : Code}
    {position : Position} {scope : Scope} {s : State} :
    (Code.default targets value position).run (level + 1) scope s =
      if (s.store.valuesOrNil scope targets).all fun v => !v.isNil then
        .ok (s.store.valuesOrNil scope targets) s
      else unlessSignal (value.run (level + 1) scope)
        (fillIn scope position targets (s.store.valuesOrNil scope targets)) s :=
  evaluate_default

/-- The result of the body of a loop after which the loop goes on. -/
def Value.goesOn : List Value → Bool
  | [.control .breaking] | [.control (.returning _)] => false
  | _ => true

theorem Value.goesOn_of_ne {values : List Value} (hbreak : values ≠ [.control .breaking])
    (hreturn : ∀ results, values ≠ [.control (.returning results)]) :
    Value.goesOn values = true := by
  unfold goesOn
  split
  · exact absurd rfl hbreak
  · exact absurd rfl (hreturn _)
  · rfl

namespace Moment

/-- Doing the task of the first moment comes to the second moment, with nothing in between. -/
inductive Starts : Moment → Moment → Prop
  | first {level code part scope s} (h : Code.first? code = some part) :
    Starts ⟨level, .code code scope, s⟩ ⟨level, .code part scope, s⟩
  | sequence {level first rest scope s values s₁} (h : first.Passes level scope s values s₁) :
    Starts ⟨level, .code (.sequence first rest) scope, s⟩ ⟨level, .code rest scope, s₁⟩
  | both {level first rest scope s values s₁} (h : first.Passes level scope s values s₁) :
    Starts ⟨level, .code (.both first rest) scope, s⟩ ⟨level, .code rest scope, s₁⟩
  | assign {level targets value position scope s values s₁}
    (h : value.Passes level scope s values s₁) (hcount : values.length = targets.length)
    (hcheck : s₁.store.checkAll scope (targets.zip values) = .ok ()) :
    Starts ⟨level, .code (.assign targets value position) scope, s⟩
      ⟨level, .writes scope position (targets.zip values), s₁⟩
  | accumulate {level target value position scope s operand s₁ current sum}
    (h : value.Passes level scope s [operand] s₁)
    (hcurrent : s₁.store.value scope target = .ok current)
    (hsum : current.add operand = .ok sum) :
    Starts ⟨level, .code (.accumulate target value position) scope, s⟩
      ⟨level, .writes scope position [(target, sum)], s₁⟩
  | default {level targets value position scope s}
    (h : (s.store.valuesOrNil scope targets).all (fun v => !v.isNil) = false) :
    Starts ⟨level, .code (.default targets value position) scope, s⟩
      ⟨level, .code value scope, s⟩
  | defaultWrites {level targets value position scope s values s₁ writes}
    (h : (s.store.valuesOrNil scope targets).all (fun v => !v.isNil) = false)
    (hvalue : value.Passes level scope s values s₁) (hcount : values.length = targets.length)
    (hwrites : writes = Store.defaultWrites targets (s.store.valuesOrNil scope targets) values)
    (hcheck : s₁.store.checkAll scope writes = .ok ()) :
    Starts ⟨level, .code (.default targets value position) scope, s⟩
      ⟨level, .writes scope position writes, s₁⟩
  | binary {level op left right position scope s a s₁} (h : left.Passes level scope s [a] s₁) :
    Starts ⟨level, .code (.binary op left right position) scope, s⟩
      ⟨level, .code right scope, s₁⟩
  | logical {level decides left right position scope s a s₁}
    (h : left.Passes level scope s [a] s₁) (hgo : a.isTruthy ≠ decides) :
    Starts ⟨level, .code (.logical decides left right position) scope, s⟩
      ⟨level, .code right scope, s₁⟩
  | yes {level condition yes no position scope s test s₁}
    (h : condition.Passes level scope s [test] s₁) (htest : test.isTruthy = true) :
    Starts ⟨level, .code (.branch condition yes no position) scope, s⟩
      ⟨level, .code yes scope, s₁⟩
  | no {level condition yes no position scope s test s₁}
    (h : condition.Passes level scope s [test] s₁) (htest : test.isTruthy = false) :
    Starts ⟨level, .code (.branch condition yes no position) scope, s⟩
      ⟨level, .code no scope, s₁⟩
  | loop {level condition body position scope s} :
    Starts ⟨level, .code (.loop condition body position) scope, s⟩
      ⟨level, .rounds condition body scope position level, s⟩
  | condition {level condition body scope position bound s} :
    Starts ⟨level, .rounds condition body scope position (bound + 1), s⟩
      ⟨level, .code condition scope, s⟩
  | body {level condition body scope position bound s test s₁}
    (h : condition.Passes level scope s [test] s₁) (htest : test.isTruthy = true) :
    Starts ⟨level, .rounds condition body scope position (bound + 1), s⟩
      ⟨level, .code body scope, s₁⟩
  | round {level condition body scope position bound s test s₁ values s₂}
    (h : condition.Passes level scope s [test] s₁) (htest : test.isTruthy = true)
    (hbody : body.run (level + 1) scope s₁ = .ok values s₂) (hgo : Value.goesOn values = true) :
    Starts ⟨level, .rounds condition body scope position (bound + 1), s⟩
      ⟨level, .rounds condition body scope position bound, s₂⟩
  | arguments {level callee arguments position scope s f s₁}
    (h : callee.Passes level scope s [.function f] s₁) :
    Starts ⟨level, .code (.apply callee arguments position) scope, s⟩
      ⟨level, .code arguments scope, s₁⟩
  | apply {level callee arguments position scope s f s₁ values s₂}
    (h : callee.Passes level scope s [.function f] s₁)
    (harguments : arguments.Passes level scope s₁ values s₂) :
    Starts ⟨level, .code (.apply callee arguments position) scope, s⟩
      ⟨level, .call f values scope position, s₂⟩
  | locals {level f values caller position s frame s₁} (hcount : values.length = f.arity)
    (hframe : newFrame f.captured s = .ok frame s₁) :
    Starts ⟨level, .call f values caller position, s⟩
      ⟨level, .writes ⟨frame, caller.chain⟩ position (f.locals.map (·, .nil)), s₁⟩
  | parameters {level f values caller position s frame s₁ s₂} (hcount : values.length = f.arity)
    (hframe : newFrame f.captured s = .ok frame s₁)
    (hlocals : assignNames ⟨frame, caller.chain⟩ position (f.locals.map (·, .nil)) s₁ = .ok () s₂) :
    Starts ⟨level, .call f values caller position, s⟩
      ⟨level, .writes ⟨frame, caller.chain⟩ position (f.parameters.zip values), s₂⟩
  | enter {level f values caller position s scope s₁} (hcount : values.length = f.arity)
    (henter : enter f values caller.chain position s = .ok scope s₁) :
    Starts ⟨level + 1, .call f values caller position, s⟩ ⟨level, .code f.body scope, s₁⟩
  | write {level scope position x v writes s s₁} (h : assignName scope position x v s = .ok () s₁) :
    Starts ⟨level, .writes scope position ((x, v) :: writes), s⟩
      ⟨level, .writes scope position writes, s₁⟩

/-- The second moment is the first one, or belongs to doing its task. -/
def Within : Moment → Moment → Prop :=
  Relation.ReflTransGen Starts

/-- What a task starts stays in its scope, with its own code, unless the task is a call; and what is
written then are targets of the code, or it was to be written already. -/
theorem Starts.inner {a b : Moment} (h : a.Starts b) :
    (∃ f values caller position, a.task = .call f values caller position) ∨
    b.task.scope = a.task.scope ∧ (∀ P, a.task.Every P → b.task.Every P) ∧
      ∀ x ∈ b.task.written, x ∈ a.task.written ∨
        ∃ code, a.task = .code code a.task.scope ∧ x ∈ code.targets := by
  cases h with
  | locals | parameters | enter => exact Or.inl ⟨_, _, _, _, rfl⟩
  | first h => exact Or.inr ⟨rfl, fun P hP => hP.part (Code.mem_parts_of_first? h), nofun⟩
  | sequence | both | binary | logical | yes | arguments =>
    exact Or.inr ⟨rfl, fun P hP => hP.part (.tail _ (.head _)), nofun⟩
  | no => exact Or.inr ⟨rfl, fun P hP => hP.part (.tail _ (.tail _ (.head _))), nofun⟩
  | default => exact Or.inr ⟨rfl, fun P hP => hP.part (.head _), nofun⟩
  | loop =>
    exact Or.inr ⟨rfl, fun P hP => ⟨hP.part (.head _), hP.part (.tail _ (.head _))⟩, nofun⟩
  | condition => exact Or.inr ⟨rfl, fun P hP => hP.1, nofun⟩
  | body => exact Or.inr ⟨rfl, fun P hP => hP.2, nofun⟩
  | round => exact Or.inr ⟨rfl, fun P hP => hP, nofun⟩
  | apply => exact Or.inr ⟨rfl, fun _ _ => trivial, nofun⟩
  | assign =>
    refine Or.inr ⟨rfl, fun _ _ => trivial, fun x hx => Or.inr ⟨_, rfl, ?_⟩⟩
    obtain ⟨w, hw, rfl⟩ := List.mem_map.1 hx
    exact (List.of_mem_zip hw).1
  | accumulate => exact Or.inr ⟨rfl, fun _ _ => trivial, fun x hx => Or.inr ⟨_, rfl, hx⟩⟩
  | defaultWrites _ _ _ hwrites =>
    refine Or.inr ⟨rfl, fun _ _ => trivial, fun x hx => Or.inr ⟨_, rfl, ?_⟩⟩
    obtain ⟨w, hw, rfl⟩ := List.mem_map.1 hx
    exact (Store.mem_defaultWrites (hwrites ▸ hw)).1
  | write =>
    exact Or.inr ⟨rfl, fun _ _ => trivial, fun x hx => Or.inl (List.mem_cons_of_mem _ hx)⟩

/-- The invariant of moments. -/
structure Fine (m : Moment) : Prop where
  sound : m.state.store.Sound
  ready : m.task.Ready m.state.store

/-- What a moment means for another one that comes while its task is done. -/
structure Leads (a b : Moment) : Prop where
  fine : b.Fine
  extended : a.state.store.Extends (a.task.Opens a.state.store) b.state.store
  opens : ∀ frame, b.task.Opens b.state.store frame →
    a.task.Opens a.state.store frame ∨ a.state.store.frames.size ≤ frame

namespace Leads

variable {a b c : Moment}

theorem trans (h : a.Leads b) (h' : b.Leads c) : a.Leads c := by
  refine ⟨h'.fine, h.extended.trans' h'.extended h.opens, fun frame ho => ?_⟩
  rcases h'.opens frame ho with ho | hle
  · exact h.opens frame ho
  · exact Or.inr (Nat.le_trans h.extended.frames hle)

end Leads

/-! ## The step lemma -/

variable {a b : Moment} {level : Nat} {scope : Scope} {s s₁ s₂ : State} {values : List Value}

/-- A part of ready code that yields values keeps the store sound and opens the frames of its
scope. -/
theorem of_run {part : Code} (hs : s.store.Sound) (hr : part.Ready s.store scope)
    (h : part.run (level + 1) scope s = .ok values s₁) :
    s₁.store.Sound ∧ s.store.Extends scope.opened s₁.store ∧
      Value.Yielded s₁.store (part.escapes = true) values :=
  (Code.codeSafe_run (level + 1) part scope s hs hr).of_ok h

theorem of_passes {part : Code} (hs : s.store.Sound) (hr : part.Ready s.store scope)
    (h : part.Passes level scope s values s₁) :
    s₁.store.Sound ∧ s.store.Extends scope.opened s₁.store ∧ Value.AreData s₁.store values := by
  obtain ⟨hs₁, he, hy⟩ := of_run hs hr h.1
  exact ⟨hs₁, he, hy.areData h.2⟩

/-- The writes of a task in a scope whose targets are bound, or else at the top level. -/
theorem opened_of_opens {ws : List (String × Value)} {position : Position} {code : Code}
    (hr : code.Ready s.store scope) (htargets : ∀ w ∈ ws, w.1 ∈ code.targets) (frame : FrameId)
    (h : (Task.writes scope position ws).Opens s.store frame) : scope.opened frame := by
  obtain ⟨rfl, w, hw, hnone⟩ := h
  exact hr.opens (htargets w hw) hnone

theorem leads_part {code part : Code} (hr : code.Ready s.store scope) (hp : part ∈ code.parts)
    (hs₁ : s₁.store.Sound) (he : s.store.Extends scope.opened s₁.store) :
    Leads ⟨level, .code code scope, s⟩ ⟨level, .code part scope, s₁⟩ :=
  ⟨⟨hs₁, (hr.part hp).extends he⟩, he, fun _ ho => Or.inl ho⟩

/-- The part after the first one, if the construct goes on. -/
theorem leads_next {code first next : Code} (hs : s.store.Sound) (hr : code.Ready s.store scope)
    (hfirst : first ∈ code.parts) (hnext : next ∈ code.parts)
    (h : first.Passes level scope s values s₁) :
    Leads ⟨level, .code code scope, s⟩ ⟨level, .code next scope, s₁⟩ := by
  obtain ⟨hs₁, he₁, -⟩ := of_passes hs (hr.part hfirst) h
  exact leads_part hr hnext hs₁ he₁

theorem leads_writes {code : Code} {position : Position} {ws : List (String × Value)}
    (hr : code.Ready s.store scope) (hs₁ : s₁.store.Sound)
    (he : s.store.Extends scope.opened s₁.store) (htargets : ∀ w ∈ ws, w.1 ∈ code.targets)
    (hdata : ∀ w ∈ ws, w.2.IsData s₁.store) :
    Leads ⟨level, .code code scope, s⟩ ⟨level, .writes scope position ws, s₁⟩ :=
  ⟨⟨hs₁, (hr.extends he).frame, hdata⟩, he,
    fun frame ho => Or.inl (opened_of_opens (hr.extends he) htargets frame ho)⟩

theorem of_newFrame {f : Function} {frame : FrameId} (hs : s.store.Sound) (hf : f.Sound s.store)
    (h : newFrame f.captured s = .ok frame s₁) :
    s₁.store.Sound ∧ s.store.Extends (fun _ => False) s₁.store ∧
      s.store.frames.size = frame ∧ frame < s₁.store.frames.size := by
  obtain ⟨hs₁, he₁, hnew, hstore⟩ := (safe_newFrame hs hf.captured).of_ok h
  exact ⟨hs₁, he₁, hnew.symm, by simp [hnew, hstore, Store.newFrame]⟩

theorem of_locals {names : List String} {position : Position} (hs : s.store.Sound)
    (hframe : scope.frame < s.store.frames.size)
    (h : assignNames scope position (names.map (·, .nil)) s = .ok () s₁) :
    s₁.store.Sound ∧ s.store.Extends (fun frame => scope.frame = frame) s₁.store := by
  obtain ⟨hs₁, he₁, -⟩ :=
    (safe_assignNames hs hframe (Value.isData_of_nils names) fun _ _ _ => rfl).of_ok h
  exact ⟨hs₁, he₁⟩

/-- The writes with which a call starts go to its own frame, which is new. -/
theorem leads_seed {f : Function} {values : List Value} {caller : Scope} {position : Position}
    {ws : List (String × Value)} {frame : FrameId} (hnew : s.store.frames.size = frame)
    (hs₁ : s₁.store.Sound) (he : s.store.Extends (fun _ => False) s₁.store)
    (hframe : frame < s₁.store.frames.size) (hdata : ∀ w ∈ ws, w.2.IsData s₁.store) :
    Leads ⟨level, .call f values caller position, s⟩
      ⟨level, .writes ⟨frame, caller.chain⟩ position ws, s₁⟩ :=
  ⟨⟨hs₁, hframe, hdata⟩, he, fun _ ho => Or.inr (Nat.le_of_eq (hnew.trans ho.1.symm))⟩

/-- The step lemma: what a fine moment starts is fine too, and comes after it. -/
theorem Starts.leads (h : a.Starts b) (ha : a.Fine) : a.Leads b := by
  obtain ⟨hs, hr⟩ := ha
  -- What comes first passes, so the store when the next task starts is sound and extends the first.
  cases h with
  | first h => exact leads_part hr (Code.mem_parts_of_first? h) hs (.refl _ _)
  | sequence h | both h | binary h | logical h | yes h | arguments h =>
    exact leads_next hs hr (.head _) (.tail _ (.head _)) h
  | no h => exact leads_next hs hr (.head _) (.tail _ (.tail _ (.head _))) h
  | assign h =>
    obtain ⟨hs₁, he₁, hv⟩ := of_passes hs (hr.part (.head _)) h
    exact leads_writes hr hs₁ he₁ (fun w hw => (List.of_mem_zip hw).1)
      fun w hw => hv w.2 (List.of_mem_zip hw).2
  | accumulate h hcurrent hsum =>
    obtain ⟨hs₁, he₁, -⟩ := of_passes hs (hr.part (.head _)) h
    refine leads_writes hr hs₁ he₁ (fun w hw => ?_) fun w hw => ?_
    · rw [List.mem_singleton.1 hw]
      exact List.mem_cons_self
    · rw [List.mem_singleton.1 hw]
      exact Value.isData_of_add hsum
  | default => exact leads_part hr (.head _) hs (.refl _ _)
  | defaultWrites _ h _ hwrites =>
    obtain ⟨hs₁, he₁, hv⟩ := of_passes hs (hr.part (.head _)) h
    subst hwrites
    exact leads_writes hr hs₁ he₁ (fun w hw => (Store.mem_defaultWrites hw).1)
      fun w hw => hv w.2 (Store.mem_defaultWrites hw).2
  | loop =>
    exact ⟨⟨hs, hr.part (.head _), hr.part (.tail _ (.head _))⟩, .refl _ _, fun _ ho => Or.inl ho⟩
  | condition => exact ⟨⟨hs, hr.1⟩, .refl _ _, fun _ ho => Or.inl ho⟩
  | body h =>
    obtain ⟨hs₁, he₁, -⟩ := of_passes hs hr.1 h
    exact ⟨⟨hs₁, hr.2.extends he₁⟩, he₁, fun _ ho => Or.inl ho⟩
  | round h _ hbody =>
    obtain ⟨hs₁, he₁, -⟩ := of_passes hs hr.1 h
    obtain ⟨hs₂, he₂, -⟩ := of_run hs₁ (hr.2.extends he₁) hbody
    have he := he₁.trans he₂
    exact ⟨⟨hs₂, hr.1.extends he, hr.2.extends he⟩, he, fun _ ho => Or.inl ho⟩
  | apply h harguments =>
    obtain ⟨hs₁, he₁, hf⟩ := of_passes hs (hr.part (.head _)) h
    obtain ⟨hs₂, he₂, hv⟩ := of_passes hs₁ ((hr.part (.tail _ (.head _))).extends he₁) harguments
    exact ⟨⟨hs₂, (hf _ List.mem_cons_self).extends he₂, hv⟩, he₁.trans he₂, nofun⟩
  | @locals _ f _ _ _ _ _ _ hcount hframe =>
    obtain ⟨hs₁, he₁, hnew, hlt⟩ := of_newFrame hs hr.1 hframe
    exact leads_seed hnew hs₁ he₁ hlt (Value.isData_of_nils f.locals)
  | @parameters _ _ _ _ _ s _ _ s₂ hcount hframe hlocals =>
    obtain ⟨hs₁, he₁, hnew, hlt⟩ := of_newFrame hs hr.1 hframe
    obtain ⟨hs₂, he₂⟩ := of_locals hs₁ hlt hlocals
    have he : s.store.Extends (fun _ => False) s₂.store :=
      he₁.trans' he₂ fun _ ho => Or.inr (Nat.le_of_eq (hnew.trans ho))
    exact leads_seed hnew hs₂ he (Nat.lt_of_lt_of_le hlt he₂.frames)
      fun w hw => (hr.2.extends he) w.2 (List.of_mem_zip hw).2
  | enter hcount henter =>
    obtain ⟨hs₁, he₁, rfl, hframe, hall⟩ := (safe_enter hs hr.1 hr.2 hcount _ _).of_ok henter
    exact ⟨⟨hs₁, (hr.1.ready hframe hall).1⟩, he₁, fun _ ho => Or.inr (Nat.le_of_eq ho.1.symm)⟩
  | @write _ scope _ x v ws s _ h =>
    have hopen : s.store.contains scope x = false →
        (Task.writes scope .nowhere ((x, v) :: ws)).Opens s.store scope.frame :=
      fun hnone => ⟨rfl, (x, v), List.mem_cons_self, hnone⟩
    obtain ⟨hs₁, he₁, -⟩ := (safe_assignName hs hr.1 (hr.2 _ List.mem_cons_self) hopen).of_ok h
    refine ⟨⟨hs₁, Nat.lt_of_lt_of_le hr.1 he₁.frames, fun w hw => ?_⟩, he₁, fun frame ho => ?_⟩
    · exact (hr.2 w (List.mem_cons_of_mem _ hw)).extends he₁
    · obtain ⟨rfl, w, hw, hnone⟩ := ho
      refine Or.inl ⟨rfl, w, List.mem_cons_of_mem _ hw, Bool.eq_false_iff.2 fun hbound => ?_⟩
      rw [Store.contains_of_extends hbound he₁] at hnone
      exact Bool.false_ne_true hnone.symm

/-! ## The run lemma -/

theorem Fine.leads (ha : a.Fine) : a.Leads a :=
  ⟨ha, .refl _ _, fun _ ho => Or.inl ho⟩

/-- Whatever belongs to doing the task of a fine moment is fine and comes after it. -/
theorem Within.leads (h : a.Within b) (ha : a.Fine) : a.Leads b := by
  induction h with
  | refl => exact ha.leads
  | tail _ hstep ih => exact ih.trans (hstep.leads ih.fine)

/-- However the task of a fine moment ends, the store is sound, and only frames that the task opens
got names. -/
theorem Fine.safe (ha : a.Fine) :
    Safe (a.task.Opens a.state.store) (a.task.perform a.level) a.state
      fun values s' => a.task.Yields s' values := by
  obtain ⟨level, task, s⟩ := a
  obtain ⟨hs, hr⟩ := ha
  cases task with
  | code code scope => exact Code.codeSafe_run (level + 1) code scope s hs hr
  | rounds condition body scope position bound =>
    exact safe_iterate (fun s => condition.Ready s scope ∧ body.Ready s scope)
      (fun he hr => ⟨hr.1.extends he, hr.2.extends he⟩)
      (fun s hs hr => Code.codeSafe_run (level + 1) condition scope s hs hr.1)
      (fun s hs hr => Code.codeSafe_run (level + 1) body scope s hs hr.2) position bound hs hr
  | call f values caller position =>
    exact callSafe_call (Code.codeSafe_run level) f values caller position s hs hr.1 hr.2
  | writes scope position ws =>
    refine (safe_assignNames hs hr.1 hr.2 fun w hw hnone => ⟨rfl, w, hw, hnone⟩).bind ?_
    exact fun _ _ hs' _ _ => safe_pure hs' rfl

/-- The states at a moment that comes while a task is done come after the start of that task. -/
theorem Leads.at (h : a.Leads b) (hs : b.At s) :
    s.store.Sound ∧ a.state.store.Extends (a.task.Opens a.state.store) s.store := by
  rcases hs with rfl | ⟨values, hresult⟩ | ⟨e, hresult⟩
  · exact ⟨h.fine.sound, h.extended⟩
  · obtain ⟨hsound, he, -⟩ := h.fine.safe.of_ok hresult
    exact ⟨hsound, h.extended.trans' he h.opens⟩
  · obtain ⟨hsound, he⟩ := h.fine.safe.of_error hresult
    exact ⟨hsound, h.extended.trans' he h.opens⟩

end Moment

end Scripting

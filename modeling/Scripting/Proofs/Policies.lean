import Scripting.Proofs.Literals

/-!
# Proofs: policies

A policy says which functions there may be, what is to hold when a task is about to be done, and how
the store may change. If it is kept by what starts next, by a function literal, by one write and by
one new frame, then it is kept by all that belongs to a task, and by the task as a whole, however it
ends.
-/

namespace Scripting

open Eval

/-! ## Values without signals -/

namespace Value

theorem isSignal_append {left right : List Value} (hleft : isSignal left = false)
    (hright : isSignal right = false) : isSignal (left ++ right) = false := by
  cases left with
  | nil => exact hright
  | cons v rest =>
    cases rest with
    | nil =>
      cases right with
      | nil => exact hleft
      | cons => cases v <;> rfl
    | cons => cases v <;> rfl

theorem AreData.not_signal {s : Store} {values : List Value} (h : AreData s values) :
    isSignal values = false := by
  unfold isSignal
  split
  · exact (h _ List.mem_cons_self).elim
  · rfl

theorem Plain.not_signal {v : Value} (h : v.Plain) : isSignal [v] = false := by
  cases v with
  | function | control => exact h.elim
  | _ => rfl

theorem returned_of_not_signal {values : List Value} (h : isSignal values = false) :
    returned values = values := by
  unfold returned
  split
  · cases h
  · rfl

end Value

theorem Store.Sound.areData_valuesOrNil {s : Store} (h : s.Sound) (scope : Scope)
    (names : List String) : Value.AreData s (s.valuesOrNil scope names) := by
  intro v hv
  obtain ⟨x, -, rfl⟩ := List.mem_map.1 hv
  exact h.value? scope x

/-! ## What a policy demands -/

/-- The store is sound, and all functions in its cells are allowed. -/
structure Store.Clean (allows : Function → Prop) (s : Store) : Prop where
  sound : s.Sound
  allowed : ∀ cell f, s.read cell = .function f → allows f

/-- What is demanded of the functions that there are, of a task that is about to be done, and of how
the store changes. -/
structure Demands where
  /-- Which functions there may be. -/
  allows : Function → Prop
  /-- What is to hold before a task. -/
  holds : Moment → Prop
  /-- How the store may change. -/
  may : Store → Store → Prop

namespace Demands

variable (D : Demands)

/-- All functions among the values are allowed. -/
def Admits (values : List Value) : Prop :=
  ∀ f, .function f ∈ values → D.allows f

/-- All functions that the task is given are allowed. -/
def Accepts : Task → Prop
  | .code _ _ | .rounds _ _ _ _ _ => True
  | .call f values _ _ => D.allows f ∧ D.Admits values
  | .writes _ _ ws => D.Admits (ws.map Prod.snd)

/-- All that is demanded before a task. -/
structure Good (m : Moment) : Prop where
  fine : m.Fine
  clean : m.state.store.Clean D.allows
  accepts : D.Accepts m.task
  holds : D.holds m

variable {D} {s : Store} {values others : List Value} {v : Value}

theorem admits_nil : D.Admits [] :=
  fun _ hf => absurd hf List.not_mem_nil

theorem admits_of_plain (h : v.Plain) : D.Admits [v] := by
  intro f hf
  cases List.mem_singleton.1 hf
  exact h.elim

theorem Admits.append (h : D.Admits values) (h' : D.Admits others) :
    D.Admits (values ++ others) :=
  fun f hf => (List.mem_append.1 hf).elim (h f) (h' f)

theorem Admits.of_subset (h : D.Admits values) (hsub : ∀ w ∈ others, w ∈ values) :
    D.Admits others :=
  fun f hf => h f (hsub _ hf)

theorem admits_of_zip {names : List String} (h : D.Admits values) :
    D.Admits ((names.zip values).map Prod.snd) := by
  refine h.of_subset fun v hv => ?_
  obtain ⟨w, hw, rfl⟩ := List.mem_map.1 hv
  exact (List.of_mem_zip hw).2

theorem admits_of_nils (names : List String) :
    D.Admits ((names.map fun x => (x, Value.nil)).map Prod.snd) := by
  intro f hf
  obtain ⟨w, hw, hvalue⟩ := List.mem_map.1 hf
  obtain ⟨x, -, rfl⟩ := List.mem_map.1 hw
  cases hvalue

theorem admits_of_defaultWrites {targets : List String} (h : D.Admits values) :
    D.Admits ((Store.defaultWrites targets others values).map Prod.snd) := by
  refine h.of_subset fun v hv => ?_
  obtain ⟨w, hw, rfl⟩ := List.mem_map.1 hv
  exact (Store.mem_defaultWrites hw).2

end Demands

namespace Store.Clean

variable {D : Demands} {s : Store} {v : Value}

/-- The values that names have are those of cells, or nil. -/
theorem admits_value? (h : s.Clean D.allows) (scope : Scope) (x : String) :
    D.Admits [(s.value? scope x).getD .nil] := by
  intro f hf
  have hvalue : (s.value? scope x).getD .nil = .function f := (List.mem_singleton.1 hf).symm
  unfold Store.value? at hvalue
  cases hcell : s.cell? scope x with
  | none =>
    rw [hcell] at hvalue
    cases hvalue
  | some cell =>
    rw [hcell] at hvalue
    exact h.allowed cell f hvalue

theorem admits_valuesOrNil (h : s.Clean D.allows) (scope : Scope) (names : List String) :
    D.Admits (s.valuesOrNil scope names) := by
  intro f hf
  obtain ⟨x, -, hx⟩ := List.mem_map.1 hf
  exact h.admits_value? scope x f (hx ▸ List.mem_singleton_self _)

theorem admits_value {scope : Scope} {x : String} (h : s.Clean D.allows)
    (hv : s.value scope x = .ok v) : D.Admits [v] ∧ Value.isSignal [v] = false := by
  have hadmits := h.admits_value? scope x
  have hdata := h.sound.value? scope x
  unfold Store.value Store.cell at hv
  unfold Store.value? at hadmits hdata
  cases hcell : s.cell? scope x with
  | none =>
    rw [hcell] at hv
    cases hv
  | some cell =>
    rw [hcell] at hv hadmits hdata
    cases hv
    exact ⟨hadmits, (Value.AreData.singleton hdata).not_signal⟩

theorem put {scope : Scope} {x : String} (h : s.Clean D.allows)
    (hframe : scope.frame < s.frames.size) (hdata : v.IsData s) (hv : D.Admits [v]) :
    (s.put scope x v).Clean D.allows := by
  refine ⟨h.sound.put hframe hdata, fun cell f hread => ?_⟩
  rw [Store.read_put (fun _ _ => h.sound.cells)] at hread
  split at hread
  · exact hv f (hread ▸ List.mem_singleton_self _)
  · exact h.allowed cell f hread

theorem newFrame {bindings : NameMap CellId} (h : s.Clean D.allows)
    (hbindings : ∀ {x c}, bindings.get? x = some c → s.Binds x c) :
    (s.newFrame bindings).2.Clean D.allows :=
  ⟨h.sound.newFrame hbindings, h.allowed⟩

end Store.Clean

open Demands

/-- Demands that no single thing that a run does breaks. -/
structure Policy extends Demands where
  refl : ∀ s, may s s
  trans : ∀ {s s' s''}, may s s' → may s' s'' → may s s''
  step : ∀ {a b : Moment}, toDemands.Good a → a.Starts b → holds b
  made : ∀ {level : Nat} {l : FunctionLiteral} {scope : Scope} {s : State},
    toDemands.Good ⟨level, .code l.code scope, s⟩ →
      (∀ x ∈ l.free, (s.store.cell? scope x).isSome) →
        allows (l.closure s.nextFunction s.store scope)
  write : ∀ {level : Nat} {scope : Scope} {position : Position} {x : String} {v : Value}
    {ws : List (String × Value)} {s : State},
    toDemands.Good ⟨level, .writes scope position ((x, v) :: ws), s⟩ →
      s.store.checkSet scope x v = .ok () → may s.store (s.store.put scope x v)
  frame : ∀ {level : Nat} {f : Function} {values : List Value} {caller : Scope}
    {position : Position} {s : State},
    toDemands.Good ⟨level, .call f values caller position, s⟩ →
      may s.store (s.store.newFrame f.captured).2

namespace Policy

/-! ## Computations that keep a policy -/

/-- However the computation ends, the store has changed as it may and its functions are allowed; and
a result satisfies `post`. -/
def Keeps {α : Type} (P : Policy) (m : Eval α) (s : State) (post : α → Prop) : Prop :=
  match m s with
  | .ok a s' => P.may s.store s'.store ∧ s'.store.Clean P.allows ∧ post a
  | .error _ s' => P.may s.store s'.store ∧ s'.store.Clean P.allows

section

variable {P : Policy} {α β : Type} {m : Eval α} {f : α → Eval β} {s s' : State}
  {post : α → Prop} {post' : β → Prop}

theorem Keeps.of_ok (h : P.Keeps m s post) {a : α} (hm : m s = .ok a s') :
    P.may s.store s'.store ∧ s'.store.Clean P.allows ∧ post a := by
  unfold Keeps at h
  rw [hm] at h
  exact h

theorem Keeps.of_error (h : P.Keeps m s post) {e : Stop RuntimeError} (hm : m s = .error e s') :
    P.may s.store s'.store ∧ s'.store.Clean P.allows := by
  unfold Keeps at h
  rw [hm] at h
  exact h

theorem keeps_pure (hs : s.store.Clean P.allows) {a : α} (h : post a) : P.Keeps (pure a) s post :=
  ⟨P.refl _, hs, h⟩

theorem keeps_throw (hs : s.store.Clean P.allows) (e : Stop RuntimeError) :
    P.Keeps (throw e : Eval α) s post :=
  ⟨P.refl _, hs⟩

theorem Keeps.bind (hm : P.Keeps m s post)
    (hf : ∀ a s', m s = .ok a s' → s'.store.Clean P.allows → post a → P.Keeps (f a) s' post') :
    P.Keeps (m >>= f) s post' := by
  cases h : m s with
  | ok a s₁ =>
    obtain ⟨hmay, hs₁, hpost⟩ := hm.of_ok h
    have hrest := hf a s₁ h hs₁ hpost
    unfold Keeps at hrest ⊢
    rw [bind_ok h]
    cases h' : f a s₁ with
    | ok b s₂ =>
      rw [h'] at hrest
      exact ⟨P.trans hmay hrest.1, hrest.2.1, hrest.2.2⟩
    | error e s₂ =>
      rw [h'] at hrest
      exact ⟨P.trans hmay hrest.1, hrest.2⟩
  | error e s₁ =>
    unfold Keeps
    rw [bind_error h]
    exact hm.of_error h

theorem Keeps.imp {post'' : α → Prop} (hm : P.Keeps m s post)
    (h : ∀ a s', m s = .ok a s' → post a → post'' a) : P.Keeps m s post'' := by
  unfold Keeps at hm ⊢
  cases hm' : m s with
  | ok a s' =>
    rw [hm'] at hm
    exact ⟨hm.1, hm.2.1, h a s' hm' hm.2.2⟩
  | error e s' =>
    rw [hm'] at hm
    exact hm

theorem keeps_look {position : Position} {look : Store → Except ScopeFault α}
    (hs : s.store.Clean P.allows) (h : ∀ a, look s.store = .ok a → P.Keeps (f a) s post') :
    P.Keeps (inspect position look >>= f) s post' := by
  unfold Keeps
  cases hlook : look s.store with
  | ok a =>
    rw [bind_ok (inspect_of_ok hlook)]
    exact h a hlook
  | error fault =>
    rw [bind_error (inspect_of_error hlook)]
    exact ⟨P.refl _, hs⟩

theorem keeps_operate {position : Position} {result : Except OperandFault Value}
    {f : Value → Eval β} (hs : s.store.Clean P.allows)
    (h : ∀ v, result = .ok v → P.Keeps (f v) s post') :
    P.Keeps (operate position result >>= f) s post' := by
  cases result with
  | ok v => exact h v rfl
  | error fault => exact ⟨P.refl _, hs⟩

theorem keeps_matchCounts {targets : List String} {values : List Value} {position : Position}
    {rest : Eval β} (hs : s.store.Clean P.allows)
    (h : values.length = targets.length → P.Keeps rest s post') :
    P.Keeps (matchCounts targets values position >>= fun _ => rest) s post' := by
  unfold matchCounts
  split
  · next hcount => exact h hcount
  · exact ⟨P.refl _, hs⟩

theorem keeps_readNames (hs : s.store.Clean P.allows) (scope : Scope) (names : List String)
    (position : Position) :
    P.Keeps (names.mapM fun x => readName scope x position) s
      fun values => P.Admits values ∧ Value.isSignal values = false := by
  induction names with
  | nil => exact keeps_pure hs ⟨admits_nil, rfl⟩
  | cons x names ih =>
    rw [List.mapM_cons]
    refine keeps_look hs fun v hv => ih.bind fun values s₁ _ hs₁ hvalues => keeps_pure hs₁ ?_
    obtain ⟨hadmits, hsignal⟩ := hs.admits_value hv
    exact ⟨hadmits.append hvalues.1, Value.isSignal_append hsignal hvalues.2⟩

end

/-! ## Signals and operands -/

section

variable {P : Policy} {part : Eval (List Value)} {s : State}

/-- What code may yield under the policy. -/
def Allowed (P : Policy) (values : List Value) : Prop :=
  P.Admits (returned values)

theorem allowed_of_admits {values : List Value} (h : P.Admits values)
    (hsignal : Value.isSignal values = false) : P.Allowed values := by
  unfold Allowed
  rw [Value.returned_of_not_signal hsignal]
  exact h

theorem allowed_of_plain {v : Value} (h : v.Plain) : P.Allowed [v] :=
  allowed_of_admits (admits_of_plain h) h.not_signal

theorem keeps_unlessSignal {next : List Value → Eval (List Value)}
    (hpart : P.Keeps part s P.Allowed)
    (hnext : ∀ values s', part s = .ok values s' → Value.isSignal values = false →
      s'.store.Clean P.allows → P.Admits values → P.Keeps (next values) s' P.Allowed) :
    P.Keeps (unlessSignal part next) s P.Allowed := by
  refine hpart.bind fun values s' hrun hs' hvalues => ?_
  cases hsignal : Value.isSignal values with
  | true => exact keeps_pure hs' hvalues
  | false =>
    unfold Allowed at hvalues
    rw [Value.returned_of_not_signal hsignal] at hvalues
    exact hnext values s' hrun hsignal hs' hvalues

theorem keeps_withOperand {next : Value → Eval (List Value)} {position : Position}
    (hpart : P.Keeps part s P.Allowed)
    (hnext : ∀ v s', part s = .ok [v] s' → Value.isSignal [v] = false → s'.store.Clean P.allows →
      P.Admits [v] → P.Keeps (next v) s' P.Allowed) :
    P.Keeps (withOperand part position next) s P.Allowed := by
  refine keeps_unlessSignal hpart fun values s' hrun hsignal hs' hvalues => ?_
  match values, hrun, hsignal, hvalues with
  | [v], hrun, hsignal, hv => exact hnext v s' hrun hsignal hs' hv
  | [], _, _, _ => exact keeps_throw hs' _
  | _ :: _ :: _, _, _, _ => exact keeps_throw hs' _

end

/-! ## Tasks -/

section

variable {P : Policy} {a b : Moment} {level : Nat} {scope : Scope} {s : State}

theorem next (P : Policy) (h : P.Good a) (hstep : a.Starts b) (hs : b.state.store.Clean P.allows)
    (haccepts : P.Accepts b.task) : P.Good b :=
  ⟨(hstep.leads h.fine).fine, hs, haccepts, P.step h hstep⟩

theorem keeps_assignName {position : Position} {x : String} {v : Value}
    {ws : List (String × Value)} (h : P.Good ⟨level, .writes scope position ((x, v) :: ws), s⟩) :
    P.Keeps (assignName scope position x v) s fun _ => True := by
  refine keeps_look h.clean fun _ hcheck => ?_
  refine ⟨P.write h hcheck, h.clean.put h.fine.ready.1 ?_ ?_, trivial⟩
  · exact h.fine.ready.2 (x, v) List.mem_cons_self
  · intro f hf
    cases List.mem_singleton.1 hf
    exact h.accepts f List.mem_cons_self

theorem keeps_writes {position : Position} {ws : List (String × Value)}
    (h : P.Good ⟨level, .writes scope position ws, s⟩) :
    P.Keeps (assignNames scope position ws) s fun _ => True := by
  induction ws generalizing s with
  | nil => exact keeps_pure h.clean trivial
  | cons w ws ih =>
    refine (keeps_assignName h).bind fun _ s₁ hrun hs₁ _ => ih ?_
    refine P.next h (.write hrun) hs₁ (h.accepts.of_subset fun v hv => ?_)
    exact List.mem_cons_of_mem _ hv

/-- The code keeps the policy wherever it is evaluated at the level. -/
def KeepsCode (P : Policy) (level : Nat) (code : Code) : Prop :=
  ∀ {scope : Scope} {s : State}, P.Good ⟨level, .code code scope, s⟩ →
    P.Keeps (code.run (level + 1) scope) s P.Allowed

/-- Calls keep the policy at the level. -/
def KeepsCalls (P : Policy) (level : Nat) : Prop :=
  ∀ {f : Function} {values : List Value} {caller : Scope} {position : Position} {s : State},
    P.Good ⟨level, .call f values caller position, s⟩ →
      P.Keeps (call (Code.run level) f values caller position) s P.Admits

theorem keeps_rounds {condition body : Code} {position : Position} {bound : Nat}
    (hcondition : P.KeepsCode level condition) (hbody : P.KeepsCode level body)
    (h : P.Good ⟨level, .rounds condition body scope position bound, s⟩) :
    P.Keeps (iterate (condition.run (level + 1) scope) (body.run (level + 1) scope) position bound)
      s P.Allowed := by
  induction bound generalizing s with
  | zero => exact keeps_throw h.clean _
  | succ bound ih =>
    have hfirst := hcondition (P.next h .condition h.clean trivial)
    refine keeps_withOperand hfirst fun test s₁ hrun hsignal hs₁ _ => ?_
    split
    · next htest =>
      have hround := hbody (P.next h (.body ⟨hrun, hsignal⟩ htest) hs₁ trivial)
      refine hround.bind fun values s₂ hrun₂ hs₂ hvalues => ?_
      split
      · exact keeps_pure hs₂ (allowed_of_plain trivial)
      · exact keeps_pure hs₂ hvalues
      · next hbreak hreturn =>
        have hgo := Value.goesOn_of_ne hbreak hreturn
        exact ih (P.next h (.round ⟨hrun, hsignal⟩ htest hrun₂ hgo) hs₂ trivial)
    · exact keeps_pure hs₁ (allowed_of_plain trivial)

theorem keeps_newFrame {f : Function} {values : List Value} {caller : Scope} {position : Position}
    (h : P.Good ⟨level, .call f values caller position, s⟩) :
    P.Keeps (newFrame f.captured) s fun _ => True :=
  ⟨P.frame h, h.clean.newFrame h.fine.ready.1.captured, trivial⟩

theorem keeps_enter {f : Function} {values : List Value} {caller : Scope} {position : Position}
    (h : P.Good ⟨level, .call f values caller position, s⟩) (hcount : values.length = f.arity) :
    P.Keeps (enter f values caller.chain position) s fun _ => True := by
  refine (keeps_newFrame h).bind fun frame s₁ hnew hs₁ _ => ?_
  have hlocals := P.next h (.locals hcount hnew) hs₁ (admits_of_nils f.locals)
  refine (keeps_writes hlocals).bind fun _ s₂ hrun hs₂ _ => ?_
  have hparameters := P.next h (.parameters hcount hnew hrun) hs₂ (admits_of_zip h.accepts.2)
  exact (keeps_writes hparameters).bind fun _ s₃ _ hs₃ _ => keeps_pure hs₃ trivial

theorem keepsCalls_zero (P : Policy) : P.KeepsCalls 0 := by
  intro f values caller position s h
  unfold call
  split
  · next hcount =>
    refine (keeps_enter h hcount).bind fun scope s₁ _ hs₁ _ => ?_
    exact ⟨P.refl _, hs₁⟩
  · exact keeps_throw h.clean _

theorem keepsCalls_succ (hcode : ∀ code, P.KeepsCode level code) : P.KeepsCalls (level + 1) := by
  intro f values caller position s h
  unfold call
  split
  · next hcount =>
    refine (keeps_enter h hcount).bind fun scope s₁ henter hs₁ _ => ?_
    have hbody := hcode f.body (P.next h (.enter hcount henter) hs₁ trivial)
    exact hbody.bind fun _ s₂ _ hs₂ hvalues => keeps_pure hs₂ hvalues
  · exact keeps_throw h.clean _

theorem keeps_literal {l : FunctionLiteral} (h : P.Good ⟨level, .code l.code scope, s⟩) :
    P.Keeps (l.code.run (level + 1) scope) s P.Allowed := by
  unfold Keeps
  cases hrun : l.code.run (level + 1) scope s with
  | ok values s' =>
    obtain ⟨hfound, rfl, rfl⟩ := FunctionLiteral.of_run hrun
    refine ⟨P.refl _, h.clean, fun f hf => ?_⟩
    cases List.mem_singleton.1 hf
    exact P.made h hfound
  | error e s' =>
    rw [FunctionLiteral.state_of_error hrun]
    exact ⟨P.refl _, h.clean⟩

/-- Code keeps the policy if calls do. -/
theorem keepsCode (hcalls : P.KeepsCalls level) (code : Code) : P.KeepsCode level code := by
  -- A part starts from a good moment, because what came before it has kept the policy.
  induction code with
  | literal value =>
    intro scope s h
    exact keeps_pure h.clean (allowed_of_plain (Value.plain_literal value))
  | name x position =>
    intro scope s h
    refine keeps_look h.clean fun v hv => keeps_pure h.clean ?_
    obtain ⟨hadmits, hsignal⟩ := h.clean.admits_value hv
    exact allowed_of_admits hadmits hsignal
  | nothing =>
    intro scope s h
    exact keeps_pure h.clean admits_nil
  | sequence first rest ihfirst ihrest =>
    intro scope s h
    refine keeps_unlessSignal (ihfirst (P.next h (.first rfl) h.clean trivial)) ?_
    exact fun _ s₁ hrun hsignal hs₁ _ => ihrest (P.next h (.sequence ⟨hrun, hsignal⟩) hs₁ trivial)
  | both first rest ihfirst ihrest =>
    intro scope s h
    refine keeps_unlessSignal (ihfirst (P.next h (.first rfl) h.clean trivial)) ?_
    intro left s₁ hrun hsignal hs₁ hleft
    refine keeps_unlessSignal (ihrest (P.next h (.both ⟨hrun, hsignal⟩) hs₁ trivial)) ?_
    intro right s₂ _ hsignal₂ hs₂ hright
    exact keeps_pure hs₂
      (allowed_of_admits (hleft.append hright) (Value.isSignal_append hsignal hsignal₂))
  | assign targets value position ih =>
    intro scope s h
    refine keeps_unlessSignal (ih (P.next h (.first rfl) h.clean trivial)) ?_
    intro values s₁ hrun hsignal hs₁ hvalues
    refine keeps_matchCounts hs₁ fun hcount => ?_
    have hwrites : P.Keeps (assignAll scope position (targets.zip values)) s₁ fun _ => True :=
      keeps_look hs₁ fun _ hcheck => keeps_writes <|
        P.next h (.assign ⟨hrun, hsignal⟩ hcount hcheck) hs₁ (admits_of_zip hvalues)
    exact hwrites.bind fun _ s₂ _ hs₂ _ => keeps_pure hs₂ (allowed_of_admits hvalues hsignal)
  | accumulate target value position ih =>
    intro scope s h
    refine keeps_withOperand (ih (P.next h (.first rfl) h.clean trivial)) ?_
    intro operand s₁ hrun hsignal hs₁ _
    refine keeps_look hs₁ fun current hcurrent => keeps_operate hs₁ fun sum hsum => ?_
    have hplain := Value.plain_of_add hsum
    have hwrite : P.Good ⟨level, .writes scope position [(target, sum)], s₁⟩ :=
      P.next h (.accumulate ⟨hrun, hsignal⟩ hcurrent hsum) hs₁ (admits_of_plain hplain)
    exact (keeps_assignName hwrite).bind
      fun _ s₂ _ hs₂ _ => keeps_pure hs₂ (allowed_of_plain hplain)
  | default targets value position ih =>
    intro scope s h
    unfold Keeps
    rw [Code.run_default]
    by_cases hall : ((s.store.valuesOrNil scope targets).all fun v => !v.isNil) = true
    · rw [if_pos hall]
      exact ⟨P.refl _, h.clean, allowed_of_admits (h.clean.admits_valuesOrNil scope targets)
        (h.clean.sound.areData_valuesOrNil scope targets).not_signal⟩
    · rw [if_neg hall]
      have hall := Bool.eq_false_iff.2 hall
      refine keeps_unlessSignal (ih (P.next h (.default hall) h.clean trivial)) ?_
      intro values s₁ hrun hsignal hs₁ hvalues
      refine keeps_matchCounts hs₁ fun hcount => ?_
      have hwrites : P.Keeps (assignAll scope position
          (Store.defaultWrites targets (s.store.valuesOrNil scope targets) values)) s₁
          fun _ => True := by
        refine keeps_look hs₁ fun _ hcheck => ?_
        exact keeps_writes (P.next h (.defaultWrites hall ⟨hrun, hsignal⟩ hcount rfl hcheck) hs₁
          (admits_of_defaultWrites hvalues))
      refine hwrites.bind fun _ s₂ _ hs₂ _ => ?_
      exact (keeps_readNames hs₂ scope targets position).imp
        fun values _ _ hvalues => allowed_of_admits hvalues.1 hvalues.2
  | unary op operand position ih =>
    intro scope s h
    refine keeps_withOperand (ih (P.next h (.first rfl) h.clean trivial)) ?_
    intro v s₁ _ _ hs₁ _
    exact keeps_operate hs₁ fun result hresult =>
      keeps_pure hs₁ (allowed_of_plain (Value.plain_of_unary hresult))
  | binary op left right position ihleft ihright =>
    intro scope s h
    refine keeps_withOperand (ihleft (P.next h (.first rfl) h.clean trivial)) ?_
    intro a s₁ hrun hsignal hs₁ _
    refine keeps_withOperand (ihright (P.next h (.binary ⟨hrun, hsignal⟩) hs₁ trivial)) ?_
    intro b s₂ _ _ hs₂ _
    exact keeps_operate hs₂ fun result hresult =>
      keeps_pure hs₂ (allowed_of_plain (Value.plain_of_binary hresult))
  | logical decides left right position ihleft ihright =>
    intro scope s h
    refine keeps_withOperand (ihleft (P.next h (.first rfl) h.clean trivial)) ?_
    intro v s₁ hrun hsignal hs₁ hv
    split
    · exact keeps_pure hs₁ (allowed_of_admits hv hsignal)
    · next hgo => exact ihright (P.next h (.logical ⟨hrun, hsignal⟩ hgo) hs₁ trivial)
  | branch condition yes no position ihcondition ihyes ihno =>
    intro scope s h
    refine keeps_withOperand (ihcondition (P.next h (.first rfl) h.clean trivial)) ?_
    intro v s₁ hrun hsignal hs₁ _
    split
    · next htest => exact ihyes (P.next h (.yes ⟨hrun, hsignal⟩ htest) hs₁ trivial)
    · next htest =>
      exact ihno (P.next h (.no ⟨hrun, hsignal⟩ (Bool.eq_false_iff.2 htest)) hs₁ trivial)
  | loop condition body position ihcondition ihbody =>
    intro scope s h
    exact keeps_rounds ihcondition ihbody (P.next h .loop h.clean trivial)
  | «return» operand ih =>
    intro scope s h
    refine keeps_unlessSignal (ih (P.next h (.first rfl) h.clean trivial)) ?_
    exact fun values s₁ _ _ hs₁ hvalues => keeps_pure hs₁ hvalues
  | «break» =>
    intro scope s h
    exact keeps_pure h.clean (fun f hf => nomatch List.mem_singleton.1 hf)
  | «continue» =>
    intro scope s h
    exact keeps_pure h.clean (fun f hf => nomatch List.mem_singleton.1 hf)
  | function parameters channels locals free passed body position =>
    intro scope s h
    exact keeps_literal (l := ⟨parameters, channels, locals, free, passed, body, position⟩) h
  | apply callee arguments position ihcallee iharguments =>
    intro scope s h
    refine keeps_withOperand (ihcallee (P.next h (.first rfl) h.clean trivial)) ?_
    intro v s₁ hrun hsignal hs₁ hv
    cases v with
    | function f =>
      refine keeps_unlessSignal
        (iharguments (P.next h (.arguments ⟨hrun, hsignal⟩) hs₁ trivial)) ?_
      intro values s₂ hrun₂ hsignal₂ hs₂ hvalues
      have hcall : P.Good ⟨level, .call f values scope position, s₂⟩ :=
        P.next h (.apply ⟨hrun, hsignal⟩ ⟨hrun₂, hsignal₂⟩) hs₂
          ⟨hv f (List.mem_singleton_self _), hvalues⟩
      refine (hcalls hcall).imp fun result s₃ hrun₃ hresult => ?_
      obtain ⟨-, -, hdata⟩ := hcall.fine.safe.of_ok hrun₃
      exact allowed_of_admits hresult (Value.AreData.not_signal hdata)
    | _ => exact keeps_throw hs₁ _
  | primitive p =>
    intro scope s h
    cases p with
    | print =>
      refine keeps_look h.clean fun v _ => ?_
      exact ⟨P.refl _, h.clean, admits_nil⟩
    | clock => exact ⟨P.refl _, h.clean, allowed_of_plain trivial⟩

theorem keepsCalls (P : Policy) (level : Nat) : P.KeepsCalls level := by
  induction level with
  | zero => exact P.keepsCalls_zero
  | succ level ih => exact keepsCalls_succ (keepsCode ih)

/-- What a task may yield under the policy. -/
def Gives (P : Policy) (values : List Value) : Task → Prop
  | .code _ _ | .rounds _ _ _ _ _ => P.Allowed values
  | .call _ _ _ _ => P.Admits values
  | .writes _ _ _ => True

/-- However the task of a good moment ends, the policy has been kept. -/
theorem keeps (P : Policy) {m : Moment} (h : P.Good m) :
    P.Keeps (m.task.perform m.level) m.state fun values => P.Gives values m.task := by
  obtain ⟨level, task, s⟩ := m
  have hcode := keepsCode (P.keepsCalls level)
  cases task with
  | code code scope => exact hcode code h
  | rounds condition body scope position bound =>
    exact keeps_rounds (hcode condition) (hcode body) h
  | call f values caller position => exact P.keepsCalls level h
  | writes scope position ws =>
    exact (keeps_writes h).bind fun _ s₁ _ hs₁ _ => keeps_pure hs₁ trivial

/-! ## Moments -/

theorem of_passes {part : Code} {values : List Value} {s₁ : State}
    (h : P.Good ⟨level, .code part scope, s⟩) (hpasses : part.Passes level scope s values s₁) :
    P.may s.store s₁.store ∧ s₁.store.Clean P.allows ∧ P.Admits values := by
  obtain ⟨hmay, hs₁, hvalues⟩ := (P.keeps h).of_ok hpasses.1
  have hallowed : P.Allowed values := hvalues
  unfold Allowed at hallowed
  rw [Value.returned_of_not_signal hpasses.2] at hallowed
  exact ⟨hmay, hs₁, hallowed⟩

/-- What starts from a good moment is given what is allowed, and the store has changed as it may. -/
theorem given (P : Policy) (h : P.Good a) (hstep : a.Starts b) :
    P.may a.state.store b.state.store ∧ b.state.store.Clean P.allows ∧ P.Accepts b.task := by
  have hfirst : ∀ {level : Nat} {code part : Code} {scope : Scope} {s : State},
      P.Good ⟨level, .code code scope, s⟩ → Code.first? code = some part →
        P.Good ⟨level, .code part scope, s⟩ :=
    fun h hpart => P.next h (.first hpart) h.clean trivial
  cases hstep with
  | first | default | loop | condition => exact ⟨P.refl _, h.clean, trivial⟩
  | sequence hp | both hp | binary hp | logical hp | yes hp | no hp | arguments hp =>
    obtain ⟨hmay, hs, -⟩ := of_passes (hfirst h rfl) hp
    exact ⟨hmay, hs, trivial⟩
  | assign hp =>
    obtain ⟨hmay, hs, hvalues⟩ := of_passes (hfirst h rfl) hp
    exact ⟨hmay, hs, admits_of_zip hvalues⟩
  | accumulate hp _ hsum =>
    obtain ⟨hmay, hs, -⟩ := of_passes (hfirst h rfl) hp
    exact ⟨hmay, hs, admits_of_plain (Value.plain_of_add hsum)⟩
  | defaultWrites hall hp _ hwrites =>
    obtain ⟨hmay, hs, hvalues⟩ := of_passes (P.next h (.default hall) h.clean trivial) hp
    exact ⟨hmay, hs, hwrites ▸ admits_of_defaultWrites hvalues⟩
  | body hp =>
    obtain ⟨hmay, hs, -⟩ := of_passes (P.next h .condition h.clean trivial) hp
    exact ⟨hmay, hs, trivial⟩
  | round hp htest hbody =>
    obtain ⟨hmay, hs₁, -⟩ := of_passes (P.next h .condition h.clean trivial) hp
    obtain ⟨hmay₂, hs₂, -⟩ := (P.keeps (P.next h (.body hp htest) hs₁ trivial)).of_ok hbody
    exact ⟨P.trans hmay hmay₂, hs₂, trivial⟩
  | apply hp harguments =>
    obtain ⟨hmay, hs₁, hf⟩ := of_passes (hfirst h rfl) hp
    obtain ⟨hmay₂, hs₂, hvalues⟩ := of_passes (P.next h (.arguments hp) hs₁ trivial) harguments
    exact ⟨P.trans hmay hmay₂, hs₂, hf _ (List.mem_singleton_self _), hvalues⟩
  | locals _ hnew =>
    obtain ⟨hmay, hs₁, -⟩ := (keeps_newFrame h).of_ok hnew
    exact ⟨hmay, hs₁, admits_of_nils _⟩
  | parameters hcount hnew hlocals =>
    obtain ⟨hmay, hs₁, -⟩ := (keeps_newFrame h).of_ok hnew
    obtain ⟨hmay₂, hs₂, -⟩ := (keeps_writes
      (P.next h (.locals hcount hnew) hs₁ (admits_of_nils _))).of_ok hlocals
    exact ⟨P.trans hmay hmay₂, hs₂, admits_of_zip h.accepts.2⟩
  | enter hcount henter =>
    obtain ⟨hmay, hs, -⟩ := (keeps_enter h hcount).of_ok henter
    exact ⟨hmay, hs, trivial⟩
  | write hwrite =>
    obtain ⟨hmay, hs, -⟩ := (keeps_assignName h).of_ok hwrite
    exact ⟨hmay, hs, h.accepts.of_subset fun v hv => List.mem_cons_of_mem _ hv⟩

/-- The step lemma of policies: what starts from a good moment is good. -/
theorem starts (P : Policy) (h : P.Good a) (hstep : a.Starts b) : P.Good b := by
  obtain ⟨-, hs, haccepts⟩ := P.given h hstep
  exact P.next h hstep hs haccepts

/-- The run lemma of policies. -/
theorem within (P : Policy) (h : P.Good a) (hwithin : a.Within b) : P.Good b := by
  induction hwithin with
  | refl => exact h
  | tail _ hstep ih => exact P.starts ih hstep

end

end Policy

end Scripting

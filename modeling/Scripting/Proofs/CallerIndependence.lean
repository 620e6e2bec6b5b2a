import Scripting.Proofs.CallFrames
import Scripting.Proofs.DetachedCalls
import Scripting.Proofs.Sources

/-!
# Proofs: nothing depends on the caller

If there are no channels and the literals that top-level code evaluates find all that they need,
then every function has taken along all that its body and the literals inside use. A call then finds
every name in its own frame, and so do the calls inside it: whatever is evaluated comes to the same
if the scopes of calls have no frames around them.
-/

namespace Scripting

open Eval

/-! ## Functions that took everything along -/

namespace Function

/-- The function is of the library, or a literal made it in a tree without channels, and it took
along all that its literal and those inside need. -/
def Closed (f : Function) : Prop :=
  f.IsNative ∨ ∃ a, a.GovernsIn (Node.Each Node.NoChannel) f.body ∧ f.MadeFrom a ∧
    ∀ x ∈ a.captures, (f.captured.get? x).isSome

variable {f : Function}

theorem Closed.from_each (h : f.Closed) : f.From (Node.Each Node.NoChannel) :=
  h.imp (fun h => h) fun ⟨a, hgoverns, hmade, _⟩ => ⟨a, hgoverns, hmade⟩

/-- A call starts with all names that the body uses and that the literals in it take along. -/
theorem Closed.provides (h : f.Closed) :
    f.body.Every fun part => ∀ x ∈ part.uses ++ part.taken, f.Provides x := by
  rcases h with hnative | ⟨a, hgoverns, hmade, hcaptures⟩
  · exact hnative.provides
  obtain ⟨m, ha, hnoted⟩ := hgoverns.governs.noted
  have hnone : ∀ x, x ∉ a.channels := fun x => hgoverns.channels ▸ List.not_mem_nil
  refine hnoted.mono fun part hpart x hx => ?_
  rcases List.mem_append.1 hx with hx | hx
  · rcases List.mem_append.1 hx with hx | hx
    · exact hmade.provides_of_identifier ha (hpart.reads x hx) fun hchannel =>
        absurd hchannel (hnone x)
    · exact hmade.provides_of_assigned ha (hpart.targets x hx)
  · have hnested : x ∈ a.nested := by
      rw [ha]
      exact hpart.taken x hx
    -- What a literal inside needs is a parameter or local here, or else it was taken along.
    cases hbinds : a.binds x with
    | false =>
      refine Or.inl (hcaptures x (Names.mem_union.2 (Or.inr (Names.mem_filter.2 ⟨hnested, ?_⟩))))
      rw [hbinds]
      rfl
    | true =>
      simp only [Analysis.binds, Bool.or_eq_true, List.contains_iff_mem,
        decide_eq_true_eq] at hbinds
      rcases hbinds with (hx | hx) | hx
      · exact Or.inr (Or.inr (hmade.parameters ▸ hx))
      · exact absurd hx (hnone x)
      · exact Or.inr (Or.inl (hmade.locals ▸ Names.mem_toList.2 hx))

theorem closed_of_found {l : FunctionLiteral} {scope : Scope} {s : State}
    (hplaced : l.code.PlacedIn (Node.Each Node.NoChannel))
    (hfound : ∀ x ∈ l.taken, (s.store.cell? scope x).isSome) :
    (l.closure s.nextFunction s.store scope).Closed := by
  have hfree : ∀ x ∈ l.free, (s.store.cell? scope x).isSome :=
    fun x hx => hfound x (List.mem_append_left _ hx)
  obtain ⟨a, hgoverns, hmade, htaken⟩ := FunctionLiteral.madeFrom_closure hplaced hfree
  refine Or.inr ⟨a, hgoverns, hmade, fun x hx => ?_⟩
  have htake : x ∈ l.taken := (htaken x).2 hx
  rw [FunctionLiteral.get?_captured, if_pos htake]
  exact hfound x htake

end Function

/-! ## Names are found in the frame of the scope -/

namespace Moment

/-- Every literal that top-level code evaluates finds all that it takes along. -/
def Complete (first : Moment) : Prop :=
  ∀ m (l : FunctionLiteral), first.Within m → m.task = .code l.code .global →
    ∀ x ∈ l.taken, (m.state.store.cell? .global x).isSome

/-- All names that the code of a task uses, and that the literals in it take along, are bound in the
frame of its scope, except at the top level. -/
def Local (m : Moment) : Prop :=
  (∃ f values caller position, m.task = .call f values caller position) ∨
  m.task.scope = .global ∨
  m.task.Every fun part => ∀ x ∈ part.uses ++ part.taken,
    m.state.store.contains m.task.scope x = true

variable {first a b : Moment}

theorem local_of_call (ha : a.Fine) {f : Function} {values : List Value} {caller : Scope}
    {position : Position} (hcall : a.task = .call f values caller position) (hf : f.Closed)
    (hstep : a.Starts b) : b.Local := by
  cases hstep with
  | locals | parameters => exact Or.inr (Or.inr trivial)
  | enter hcount henter =>
    cases hcall
    obtain ⟨-, -, -, -, hall⟩ := (safe_enter ha.sound ha.ready.1 ha.ready.2 hcount _ _).of_ok henter
    exact Or.inr (Or.inr (hf.provides.mono fun part hpart x hx => hall x (hpart x hx)))
  | _ => cases hcall

theorem Local.step (h : a.Local) (ha : a.Fine)
    (hf : ∀ f values caller position, a.task = .call f values caller position → f.Closed)
    (hstep : a.Starts b) : b.Local := by
  rcases hstep.inner with ⟨f, values, caller, position, hcall⟩ | ⟨hscope, hevery, -⟩
  · exact local_of_call ha hcall (hf f values caller position hcall) hstep
  rcases h with ⟨f, values, caller, position, hcall⟩ | hglobal | hnames
  · exact local_of_call ha hcall (hf f values caller position hcall) hstep
  · exact Or.inr (Or.inl (hscope.trans hglobal))
  · refine Or.inr (Or.inr (hevery _ (hnames.mono fun part hpart x hx => ?_)))
    rw [hscope]
    exact Store.contains_of_extends (hpart x hx) (hstep.leads ha).extended

/-- Code finds the names that it uses in the frame of its scope, now and later. -/
theorem Local.alone {level : Nat} {code : Code} {scope : Scope} {s : State}
    (h : Local ⟨level, .code code scope, s⟩) {opened : FrameId → Prop} {s' : Store}
    (he : s.store.Extends opened s') :
    ∀ x ∈ code.uses ++ code.taken, s'.cell? scope.alone x = s'.cell? scope x := by
  intro x hx
  rcases h with ⟨f, values, caller, position, hcall⟩ | hglobal | hnames
  · cases hcall
  · have hglobal : scope = .global := hglobal
    rw [hglobal]
    rfl
  · have hbound := Code.Every.self hnames x hx
    exact Store.cell?_alone_of_contains (Store.contains_of_extends hbound he)

theorem Local.alone_now {level : Nat} {code : Code} {scope : Scope} {s : State}
    (h : Local ⟨level, .code code scope, s⟩) :
    ∀ x ∈ code.uses ++ code.taken, s.store.cell? scope.alone x = s.store.cell? scope x :=
  h.alone (.refl (fun _ => True) _)

end Moment

/-- All functions have taken everything along, and all names are found in the frame of the scope. -/
def Policy.closed {first : Moment} (hfirst : first.Complete) : Policy where
  allows := Function.Closed
  holds m := first.Within m ∧ m.task.Every (Code.PlacedIn (Node.Each Node.NoChannel)) ∧ m.Local
  may _ _ := True
  refl _ := trivial
  trans _ _ := trivial
  step {a b} h hstep := by
    obtain ⟨hwithin, hplaced, hlocal⟩ := h.holds
    have hcalled : ∀ f values caller position, a.task = .call f values caller position →
        f.Closed := by
      intro f values caller position hcall
      have haccepts := h.accepts
      rw [hcall] at haccepts
      exact haccepts.1
    refine ⟨.tail hwithin hstep, hstep.every (fun f values caller position hcall => ?_) hplaced,
      hlocal.step h.fine hcalled hstep⟩
    exact (hcalled f values caller position hcall).from_each.placedIn
  made {level l scope s} h _ := by
    obtain ⟨hwithin, hplaced, hlocal⟩ := h.holds
    refine Function.closed_of_found (Code.Every.self hplaced) fun x hx => ?_
    -- Only at the top level does it take more than the frame of the scope.
    rcases hlocal with ⟨f, values, caller, position, hcall⟩ | hglobal | hnames
    · cases hcall
    · have hglobal : scope = .global := hglobal
      subst hglobal
      exact hfirst _ l hwithin rfl x hx
    · have hbound := Code.Every.self hnames x (List.mem_append_right _ hx)
      obtain ⟨cell, hown⟩ := Option.isSome_iff_exists.1 hbound
      have hown : s.store.ownCell? scope x = some cell := hown
      rw [Store.cell?_of_ownCell? hown]
      rfl
  write _ _ := trivial
  frame _ := trivial

theorem Policy.local_of_closed {first m : Moment} {hfirst : first.Complete}
    (h : (Policy.closed hfirst).Good m) : m.Local :=
  h.holds.2.2

/-! ## Runs without the caller -/

namespace Policy

variable {P : Policy} {level : Nat} {scope : Scope} {s : State}

/-- Evaluating the code comes to the same without the frames around scopes. -/
def CodeAlone (P : Policy) (level : Nat) (code : Code) : Prop :=
  ∀ {scope : Scope} {s : State}, P.Good ⟨level, .code code scope, s⟩ →
    code.runIn Scope.detached (level + 1) scope.alone s = code.run (level + 1) scope s

/-- Calls come to the same without the frames around scopes. -/
def CallsAlone (P : Policy) (level : Nat) : Prop :=
  ∀ {f : Function} {values : List Value} {caller : Scope} {position : Position} {s : State},
    P.Good ⟨level, .call f values caller position, s⟩ →
      callIn Scope.detached (Code.runIn Scope.detached level) f values caller.alone position s =
        call (Code.run level) f values caller position s

theorem callsAlone_zero (P : Policy) : P.CallsAlone 0 :=
  fun _ => callIn_detached fun _ _ _ _ => rfl

theorem callsAlone_succ (hcode : ∀ code, P.CodeAlone level code) : P.CallsAlone (level + 1) := by
  intro f values caller position s h
  refine callIn_detached fun scope s₁ hcount henter => ?_
  exact hcode f.body (P.starts h (.enter hcount henter))

theorem rounds_alone {condition body : Code} {position : Position} {bound : Nat}
    (hcondition : P.CodeAlone level condition) (hbody : P.CodeAlone level body)
    (h : P.Good ⟨level, .rounds condition body scope position bound, s⟩) :
    iterate (condition.runIn Scope.detached (level + 1) scope.alone)
        (body.runIn Scope.detached (level + 1) scope.alone) position bound s =
      iterate (condition.run (level + 1) scope) (body.run (level + 1) scope) position bound s := by
  induction bound generalizing s with
  | zero => rw [iterate, iterate]
  | succ bound ih =>
    rw [iterate, iterate]
    refine withOperand_same (hcondition (P.starts h .condition)) fun test s₁ hrun hsignal => ?_
    split
    · next htest =>
      have hround := P.starts h (.body ⟨hrun, hsignal⟩ htest)
      refine bind_same (hbody hround) fun values s₂ hrun₂ => ?_
      split
      · rfl
      · rfl
      · next hbreak hreturn =>
        have hgo := Value.goesOn_of_ne hbreak hreturn
        exact ih (P.starts h (.round ⟨hrun, hsignal⟩ htest hrun₂ hgo))
    · rfl

theorem literal_alone {l : FunctionLiteral}
    (h : ∀ x ∈ l.taken, s.store.cell? scope.alone x = s.store.cell? scope x) :
    l.code.runIn Scope.detached (level + 1) scope.alone s = l.code.run (level + 1) scope s := by
  have hfree : ∀ x ∈ l.free, s.store.cell? scope.alone x = s.store.cell? scope x :=
    fun x hx => h x (List.mem_append_left _ hx)
  have hpassed : ∀ x ∈ l.passed, s.store.cell? scope.alone x = s.store.cell? scope x :=
    fun x hx => h x (List.mem_append_right _ hx)
  refine bind_same (captureAll_congr hfree) fun captured s₁ hcapture => ?_
  cases (captureAll_of_found (found_of_captureAll hcapture)).symm.trans hcapture
  exact bind_same (captureFound_congr hpassed) fun _ _ _ => rfl

/-- Code comes to the same if calls do and all moments find their names in the frame of the
scope. -/
theorem codeAlone (hlocal : ∀ {m}, P.Good m → m.Local) (hcalls : P.CallsAlone level)
    (code : Code) : P.CodeAlone level code := by
  -- Both runs go through the same states, so each part starts from the same good moment.
  induction code with
  | literal | nothing | «break» | «continue» =>
    intro scope s h
    rfl
  | name x position =>
    intro scope s h
    have hread := (hlocal h).alone_now x (by simp [Code.uses, Code.reads])
    exact bind_same (readName_congr hread) fun _ _ _ => rfl
  | sequence first rest ihfirst ihrest =>
    intro scope s h
    refine unlessSignal_same (ihfirst (P.starts h (.first rfl))) fun _ s₁ hrun hsignal => ?_
    exact ihrest (P.starts h (.sequence ⟨hrun, hsignal⟩))
  | both first rest ihfirst ihrest =>
    intro scope s h
    refine unlessSignal_same (ihfirst (P.starts h (.first rfl))) fun left s₁ hrun hsignal => ?_
    exact unlessSignal_same (ihrest (P.starts h (.both ⟨hrun, hsignal⟩))) fun _ _ _ _ => rfl
  | assign targets value position ih =>
    intro scope s h
    refine unlessSignal_same (ih (P.starts h (.first rfl))) fun values s₁ _ _ => ?_
    rw [assignAll_alone]
  | accumulate target value position ih =>
    intro scope s h
    have hfirst := P.starts h (.first rfl)
    refine withOperand_same (ih hfirst) fun operand s₁ hrun hsignal => ?_
    obtain ⟨-, he, -⟩ := Moment.of_passes hfirst.fine.sound hfirst.fine.ready ⟨hrun, hsignal⟩
    have hread := (hlocal h).alone he target (by simp [Code.uses, Code.reads, Code.targets])
    exact bind_same (readName_congr hread) fun _ _ _ => rfl
  | default targets value position ih =>
    intro scope s h
    have hnames : ∀ x ∈ targets,
        x ∈ (Code.default targets value position).uses ++
          (Code.default targets value position).taken :=
      fun x hx => by simp [Code.uses, Code.targets, hx]
    have hvalues : s.store.valuesOrNil scope.alone targets = s.store.valuesOrNil scope targets :=
      Store.valuesOrNil_congr fun x hx => (hlocal h).alone_now x (hnames x hx)
    refine Code.evaluate_default.trans ?_
    rw [hvalues, Code.run_default]
    by_cases hall : ((s.store.valuesOrNil scope targets).all fun v => !v.isNil) = true
    · rw [if_pos hall, if_pos hall]
    · rw [if_neg hall, if_neg hall]
      have hvalue := P.starts h (.default (Bool.eq_false_iff.2 hall))
      refine unlessSignal_same (ih hvalue) fun values s₁ hrun hsignal => ?_
      obtain ⟨hs₁, he₁, hdata⟩ :=
        Moment.of_passes hvalue.fine.sound hvalue.fine.ready ⟨hrun, hsignal⟩
      have hready : (Code.default targets value position).Ready s₁.store scope :=
        Code.Ready.extends h.fine.ready he₁
      refine matchCounts_same ?_
      refine bind_same (congrFun (assignAll_alone scope position _) s₁) fun _ s₃ hassign => ?_
      obtain ⟨-, he₂, -⟩ := (safe_assignAll hs₁ hready.frame
        (fun w hw => hdata w.2 (Store.mem_defaultWrites hw).2)
        (fun w hw hnone => hready.opens (Store.mem_defaultWrites hw).1 hnone)).of_ok hassign
      exact readNames_congr fun x hx => (hlocal h).alone (he₁.trans he₂) x (hnames x hx)
  | unary op operand position ih =>
    intro scope s h
    exact withOperand_same (ih (P.starts h (.first rfl))) fun _ _ _ _ => rfl
  | binary op left right position ihleft ihright =>
    intro scope s h
    refine withOperand_same (ihleft (P.starts h (.first rfl))) fun a s₁ hrun hsignal => ?_
    exact withOperand_same (ihright (P.starts h (.binary ⟨hrun, hsignal⟩))) fun _ _ _ _ => rfl
  | logical decides left right position ihleft ihright =>
    intro scope s h
    refine withOperand_same (ihleft (P.starts h (.first rfl))) fun v s₁ hrun hsignal => ?_
    split
    · rfl
    · next hgo => exact ihright (P.starts h (.logical ⟨hrun, hsignal⟩ hgo))
  | branch condition yes no position ihcondition ihyes ihno =>
    intro scope s h
    refine withOperand_same (ihcondition (P.starts h (.first rfl))) fun v s₁ hrun hsignal => ?_
    split
    · next htest => exact ihyes (P.starts h (.yes ⟨hrun, hsignal⟩ htest))
    · next htest => exact ihno (P.starts h (.no ⟨hrun, hsignal⟩ (Bool.eq_false_iff.2 htest)))
  | loop condition body position ihcondition ihbody =>
    intro scope s h
    exact rounds_alone ihcondition ihbody (P.starts h .loop)
  | «return» operand ih =>
    intro scope s h
    exact unlessSignal_same (ih (P.starts h (.first rfl))) fun _ _ _ _ => rfl
  | function parameters channels locals free passed body position =>
    intro scope s h
    exact literal_alone (l := ⟨parameters, channels, locals, free, passed, body, position⟩)
      fun x hx => (hlocal h).alone_now x (List.mem_append_right _ hx)
  | apply callee arguments position ihcallee iharguments =>
    intro scope s h
    refine withOperand_same (ihcallee (P.starts h (.first rfl))) fun v s₁ hrun hsignal => ?_
    cases v with
    | function f =>
      refine unlessSignal_same (iharguments (P.starts h (.arguments ⟨hrun, hsignal⟩))) ?_
      intro values s₂ hrun₂ hsignal₂
      exact hcalls (P.starts h (.apply ⟨hrun, hsignal⟩ ⟨hrun₂, hsignal₂⟩))
    | _ => rfl
  | primitive p =>
    intro scope s h
    cases p with
    | print =>
      have hread := (hlocal h).alone_now "value" (by simp [Code.uses, Code.reads])
      exact bind_same (readName_congr hread) fun _ _ _ => rfl
    | clock => rfl

theorem callsAlone (hlocal : ∀ {m}, P.Good m → m.Local) (level : Nat) : P.CallsAlone level := by
  induction level with
  | zero => exact P.callsAlone_zero
  | succ level ih => exact callsAlone_succ (codeAlone hlocal ih)

end Policy

/-! ## Sessions -/

/-- It is enough that the names are bound when the top-level code starts. -/
theorem Moment.complete_of_bound {level : Nat} {code : Code} {s : State}
    (hfine : Moment.Fine ⟨level, .code code .global, s⟩)
    (hbound : code.Every fun part => ∀ x ∈ part.taken, (s.store.cell? .global x).isSome) :
    Moment.Complete ⟨level, .code code .global, s⟩ := by
  intro m l hwithin htask x hx
  have hinside := hwithin.inside hfine (Nat.le_refl _) (Or.inl ⟨rfl, hbound⟩)
  rw [htask] at hinside
  rcases hinside with ⟨-, hevery⟩ | hle
  · have hsome : (s.store.cell? .global x).isSome := Code.Every.self hevery x hx
    obtain ⟨cell, hcell⟩ := Option.isSome_iff_exists.1 hsome
    have hown : s.store.ownCell? .global x = some cell :=
      (Store.cell?_eq_ownCell? rfl).symm.trans hcell
    rw [Store.cell?_of_ownCell? ((hwithin.leads hfine).extended.kept hown)]
    rfl
  · exact absurd hfine.sound.global (Nat.not_lt.2 hle)

namespace Session

/-- Runs a source with the scopes of calls inside the frames that `around` gives. -/
def runIn (around : Scope → List FrameId) (fuel : Nat) (display : Display) (source : String) :
    SessionM (List Value) := do
  let code ← prepare display source
  return returned (← evaluating (code.runIn around fuel .global))

/-- With the frames of the caller around the scopes of calls it is a run of the session. -/
theorem runIn_chain : runIn Scope.chain = run := by
  funext fuel display source
  rw [runIn, run_eq, Code.runIn_chain]

/-- What may come next in a session. -/
inductive Step where
  /-- A source is run. -/
  | run (fuel : Nat) (display : Display) (source : String)
  /-- What was printed is written out, and time passes. -/
  | later (clock : Clock)

/-- The session after a run, also if the run failed. -/
def after : EStateM.Result (Stop Error) Session (List Value) → Session
  | .ok _ a | .error _ a => a

/-- How the runs end, one after the other: with which values or error, and in which session. -/
def play (run : Nat → Display → String → SessionM (List Value)) :
    List Step → Session → List (EStateM.Result (Stop Error) Session (List Value))
  | [], _ => []
  | .run fuel display source :: steps, a =>
    let result := run fuel display source a
    result :: play run steps (after result)
  | .later clock :: steps, a =>
    play run steps { a with state := { a.state with output := "", clock } }

/-- No literal in the sources has channels, and in each run the literals that top-level code
evaluates find all that they take along. -/
def Complete : List Step → Session → Prop
  | [], _ => True
  | .run fuel display source :: steps, a =>
    Reads (Node.Each Node.NoChannel) source ∧
    (∀ code b level, fuel = level + 1 → prepare display source a = .ok code b →
      Moment.Complete ⟨level, .code code .global, b.state⟩) ∧
    Complete steps (after (run fuel display source a))
  | .later clock :: steps, a =>
    Complete steps { a with state := { a.state with output := "", clock } }

variable {a b : Session} {fuel level : Nat} {display : Display} {source : String} {code : Code}
  {steps : List Step}

theorem good_of_complete (ha : a.state.store.Clean Function.Closed)
    (hsource : Reads (Node.Each Node.NoChannel) source)
    (hprepare : prepare display source a = .ok code b)
    (hcomplete : Moment.Complete ⟨level, .code code .global, b.state⟩) :
    (Policy.closed hcomplete).Good ⟨level, .code code .global, b.state⟩ := by
  obtain ⟨hb, hready, -⟩ := ready_of_prepare ha.sound hprepare
  have hclean : b.state.store.Clean Function.Closed := by
    rw [(leavesStore_prepare display source).ok hprepare]
    exact ha
  exact ⟨⟨hb, hready⟩, hclean, trivial, .refl, placedIn_of_prepare hsource hprepare,
    Or.inr (Or.inl rfl)⟩

theorem Reachable.after (ha : a.Reachable) (fuel : Nat) (display : Display) (source : String) :
    (after (Session.run fuel display source a)).Reachable := by
  cases h : Session.run fuel display source a with
  | ok values b => exact .run ha h
  | error e b => exact .failed ha h

theorem Complete.run (root : Node) (code : Code) (ha : a.Reachable)
    (hparses : Parses source root) (hroot : root.Each Node.NoChannel)
    (hprepare : prepare display source a = .ok code b)
    (hbound : code.Every fun part => ∀ x ∈ part.taken, (b.state.store.cell? .global x).isSome)
    (hrest : Complete steps (after (Session.run fuel display source a))) :
    Complete (.run fuel display source :: steps) a := by
  refine ⟨reads_of_parses hparses hroot, fun code' b' level _ hprepare' => ?_, hrest⟩
  cases hprepare.symm.trans hprepare'
  obtain ⟨hb, hready, -⟩ := ready_of_prepare ha.sound hprepare
  exact Moment.complete_of_bound ⟨hb, hready⟩ hbound

theorem runIn_detached (ha : a.state.store.Clean Function.Closed)
    (hsource : Reads (Node.Each Node.NoChannel) source)
    (hcomplete : ∀ code b level, fuel = level + 1 → prepare display source a = .ok code b →
      Moment.Complete ⟨level, .code code .global, b.state⟩) :
    runIn Scope.detached fuel display source a = run fuel display source a := by
  rw [← runIn_chain]
  refine bind_same rfl fun code b hprepare => bind_same ?_ fun _ _ _ => rfl
  have hsame : code.runIn Scope.detached fuel .global b.state =
      code.runIn Scope.chain fuel .global b.state := by
    rw [Code.runIn_chain]
    cases fuel with
    | zero => rfl
    | succ level =>
      have hgood := good_of_complete ha hsource hprepare (hcomplete code b level rfl hprepare)
      exact Policy.codeAlone Policy.local_of_closed (Policy.callsAlone Policy.local_of_closed level)
        code hgood
  unfold evaluating
  rw [hsame]

theorem clean_after (ha : a.state.store.Clean Function.Closed)
    (hsource : Reads (Node.Each Node.NoChannel) source)
    (hcomplete : ∀ code b level, fuel = level + 1 → prepare display source a = .ok code b →
      Moment.Complete ⟨level, .code code .global, b.state⟩) :
    (after (run fuel display source a)).state.store.Clean Function.Closed := by
  have hrun := clean_of_run fuel display source ha fun code b level hfuel hprepare =>
    ⟨Policy.closed (hcomplete code b level hfuel hprepare), rfl,
      good_of_complete ha hsource hprepare (hcomplete code b level hfuel hprepare)⟩
  cases h : run fuel display source a with
  | ok values b =>
    rw [h] at hrun
    exact hrun
  | error e b =>
    rw [h] at hrun
    exact hrun

theorem play_detached (ha : a.state.store.Clean Function.Closed) (h : Complete steps a) :
    play (runIn Scope.detached) steps a = play run steps a := by
  induction steps generalizing a with
  | nil => rfl
  | cons step steps ih =>
    cases step with
    | run fuel display source =>
      obtain ⟨hsource, hcomplete, hrest⟩ := h
      rw [play, play, runIn_detached ha hsource hcomplete]
      exact congrArg _ (ih (clean_after ha hsource hcomplete) hrest)
    | later clock => exact ih ha h

end Session

/-- If no literal has channels and the literals that top-level code evaluates find all that they
take along, then a session is the same without any frames around the scopes of calls. -/
theorem callers_do_not_matter {clock : Clock} {steps : List Session.Step}
    (h : Session.Complete steps (.start clock)) :
    Session.play (Session.runIn Scope.detached) steps (.start clock) =
      Session.play Session.run steps (.start clock) := by
  have hclean : (Session.start clock).state.store.Clean Function.Closed :=
    ⟨(Session.Reachable.start clock).sound, fun cell f hread =>
      Or.inl (Session.isNative_of_start hread)⟩
  exact Session.play_detached hclean h

/-- A function with a parameter `x` calls one that took another `x` along. -/
def Session.shadowing : List Session.Step :=
  [.run 10 .plain "x := 1", .run 10 .plain "f := func() \x7b return x \x7d",
    .run 10 .plain "g := func(x) \x7b return f() \x7d\ng(2)"]

/-- The function reads a variable of the top level. It is called where a parameter has the name of
that variable, and still yields what the top level holds. -/
theorem callers_do_not_matter_shadowing :
    Session.Complete Session.shadowing (.start 0) ∧
      Session.play (Session.runIn Scope.detached) Session.shadowing (.start 0) =
        Session.play Session.run Session.shadowing (.start 0) ∧
      ∃ b, (Session.play Session.run Session.shadowing (.start 0)).getLast? =
        some (.ok [.int 1] b) := by
  have hstart := Session.Reachable.start 0
  have hx := hstart.after 10 .plain "x := 1"
  have hf := hx.after 10 .plain "f := func() \x7b return x \x7d"
  have hcomplete : Session.Complete Session.shadowing (.start 0) := by
    -- The trees and the code, as far as functions are concerned.
    refine .run ⟨.statements, _, _, [⟨.assign, _, _,
        [⟨.identifier, _, _, []⟩, ⟨.int, _, _, []⟩]⟩]⟩
      (.assign _ (.literal _) _) hstart ⟨_, rfl, rfl⟩ ?_ rfl ⟨nofun, nofun, trivial⟩ ?_
    · simp [Node.each_iff, Node.NoChannel]
    refine .run ⟨.statements, _, _, [⟨.assign, _, _, [⟨.identifier, _, _, []⟩,
        ⟨.funcWord, _, _, [⟨.leftParen, _, _, []⟩, ⟨.leftBracket, _, _, []⟩, ⟨.statements, _, _,
          [⟨.returnWord, _, _, [⟨.identifier, _, _, []⟩]⟩]⟩]⟩]⟩]⟩
      (.assign _ (.function _ _ _ ["x"] [] _ _) _) hx ⟨_, rfl, rfl⟩ ?_ rfl
      ⟨nofun, fun x hx => ?_, trivial⟩ ?_
    · simp [Node.each_iff, Node.NoChannel, Node.nameList, Node.nameLists]
    · cases List.mem_singleton.1 hx
      rfl
    refine .run ⟨.statements, _, _, [⟨.assign, _, _, [⟨.identifier, _, _, []⟩,
        ⟨.funcWord, _, _, [⟨.leftParen, _, _, [⟨.identifier, _, _, []⟩]⟩, ⟨.leftBracket, _, _, []⟩,
          ⟨.statements, _, _, [⟨.returnWord, _, _,
            [⟨.application, _, _, [⟨.identifier, _, _, []⟩]⟩]⟩]⟩]⟩]⟩,
        ⟨.application, _, _, [⟨.identifier, _, _, []⟩, ⟨.int, _, _, []⟩]⟩]⟩
      (.sequence (.assign _ (.function _ _ _ ["f"] [] _ _) _) (.apply (.name _ _) (.literal _) _))
      hf ⟨_, rfl, rfl⟩ ?_ rfl
      ⟨nofun, ⟨nofun, fun x hx => ?_, trivial⟩, nofun, ⟨nofun, trivial⟩, nofun, trivial⟩ trivial
    · simp [Node.each_iff, Node.NoChannel, Node.nameList, Node.nameLists]
    · cases List.mem_singleton.1 hx
      rfl
  exact ⟨hcomplete, callers_do_not_matter hcomplete, _, rfl⟩

end Scripting

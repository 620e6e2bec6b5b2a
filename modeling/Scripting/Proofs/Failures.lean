import Scripting.Proofs.Assignments
import Scripting.Proofs.Continuations

/-!
# Proofs: which construct an error comes from

When evaluation fails, one construct fails itself, and all others that the error passes fail because
a part of them does. The error names the place of that construct. If it is for want of a variable,
the construct looks that variable up, and its scope does not find it.
-/

namespace Scripting

open Eval

/-! ## Errors of a place -/

/-- The failure to find a variable. -/
def undefinedAt (x : String) (position : Position) : Stop RuntimeError :=
  .error ⟨.scope (.undefined x), position⟩

/-- The variable for want of which evaluation fails. -/
def RuntimeFault.wanted : RuntimeFault → Option String
  | .scope (.undefined x) | .capture x => some x
  | _ => none

/-- The error names the place and is not for want of a variable. -/
structure RuntimeError.OtherAt (e : RuntimeError) (position : Position) : Prop where
  position : e.position = position
  wanted : e.fault.wanted = none

namespace Eval

/-- If the computation fails, then at the place and not for want of a variable. -/
structure FailsAt {α : Type} (position : Position) (m : Eval α) : Prop where
  other : ∀ {s e s'}, m s = .error (.error e) s' → e.OtherAt position

variable {α β : Type} {position : Position} {scope : Scope} {s s' : State} {e : RuntimeError}
  {x : String}

theorem FailsAt.bind {m : Eval α} {f : α → Eval β} (hm : FailsAt position m)
    (hf : ∀ a, FailsAt position (f a)) : FailsAt position (m >>= f) := by
  refine ⟨fun h => ?_⟩
  rcases error_of_bind h with h | ⟨a, s₁, -, h⟩
  · exact hm.other h
  · exact (hf a).other h

theorem failsAt_pure (a : α) : FailsAt position (pure a : Eval α) :=
  ⟨nofun⟩

theorem failsAt_fail {fault : RuntimeFault} (h : fault.wanted = none) :
    FailsAt position (fail fault position : Eval α) := by
  refine ⟨fun hfail => ?_⟩
  cases hfail
  exact ⟨rfl, h⟩

theorem failsAt_operate (result : Except OperandFault Value) :
    FailsAt position (operate position result) := by
  cases result with
  | ok value => exact failsAt_pure value
  | error fault => exact failsAt_fail rfl

theorem failsAt_matchCounts (targets : List String) (values : List Value) :
    FailsAt position (matchCounts targets values position) := by
  unfold matchCounts
  split
  · exact failsAt_pure ()
  · exact failsAt_fail rfl

/-- A write that is refused names its place. -/
theorem otherAt_of_typeMismatch {fault : ScopeFault} (h : Store.TypeMismatch fault) :
    RuntimeError.OtherAt ⟨.scope fault, position⟩ position := by
  obtain ⟨name, old, new, rfl⟩ := h
  exact ⟨rfl, rfl⟩

theorem failsAt_assignNames (ws : List (String × Value)) :
    FailsAt position (assignNames scope position ws) := by
  refine ⟨fun h => ?_⟩
  obtain ⟨fault, hfault, he⟩ := error_of_assignNames h
  cases he
  exact otherAt_of_typeMismatch hfault

theorem failsAt_assignName (x : String) (v : Value) :
    FailsAt position (assignName scope position x v) := by
  refine ⟨fun h => ?_⟩
  obtain ⟨-, fault, hcheck, he⟩ := error_of_assignName h
  cases he
  exact otherAt_of_typeMismatch (Store.typeMismatch_of_checkSet hcheck)

theorem failsAt_assignAll (ws : List (String × Value)) :
    FailsAt position (assignAll scope position ws) := by
  refine ⟨fun h => ?_⟩
  obtain ⟨fault, hfault, he⟩ := error_of_assignAll h
  cases he
  exact otherAt_of_typeMismatch hfault

theorem failsAt_enter (f : Function) (values : List Value) (outer : List FrameId) :
    FailsAt position (enter f values outer position) := by
  have hframe : FailsAt position (newFrame f.captured) := ⟨nofun⟩
  exact hframe.bind fun _ => (failsAt_assignNames _).bind fun _ =>
    (failsAt_assignNames _).bind fun _ => failsAt_pure _

theorem error_of_readName {e : Stop RuntimeError} (h : readName scope x position s = .error e s') :
    s' = s ∧ e = undefinedAt x position ∧ s.store.cell? scope x = none := by
  obtain ⟨rfl, fault, hvalue, rfl⟩ := error_of_inspect h
  unfold Store.value Store.cell at hvalue
  cases hcell : s'.store.cell? scope x with
  | some c => simp [hcell, Except.map] at hvalue
  | none =>
    rw [hcell] at hvalue
    cases hvalue
    exact ⟨rfl, rfl, rfl⟩

theorem error_of_captureAll {before : NameMap CellId} {names : List String}
    {e : Stop RuntimeError} (h : captureAll scope position before names s = .error e s') :
    ∃ x ∈ names, s' = s ∧ e = .error ⟨.capture x, position⟩ ∧ s.store.cell? scope x = none := by
  induction names generalizing before with
  | nil => cases h
  | cons name names ih =>
    have hget : (get : Eval State) s = .ok s s := rfl
    unfold captureAll at h
    rw [bind_ok hget] at h
    cases hcell : s.store.cell? scope name with
    | some cell =>
      simp only [hcell] at h
      obtain ⟨x, hx, hmissing⟩ := ih h
      exact ⟨x, List.mem_cons_of_mem _ hx, hmissing⟩
    | none =>
      simp only [hcell] at h
      cases h
      exact ⟨name, List.mem_cons_self, rfl, rfl, hcell⟩

/-- An operand fails, or there is not one value, or what follows fails. -/
theorem failure_of_withOperand {part : Eval (List Value)} {next : Value → Eval (List Value)}
    (h : withOperand part position next s = .error (.error e) s') :
    part s = .error (.error e) s' ∨ e.OtherAt position ∨
    ∃ v s₁, part s = .ok [v] s₁ ∧ Value.isSignal [v] = false ∧
      next v s₁ = .error (.error e) s' := by
  rcases error_of_withOperand h with h | ⟨count, he⟩ | h
  · exact Or.inl h
  · cases he
    exact Or.inr (Or.inl ⟨rfl, rfl⟩)
  · exact Or.inr (Or.inr h)

/-- A call fails by itself, or the body does. -/
theorem failure_of_call {body : Code → Scope → Eval (List Value)} {f : Function}
    {arguments : List Value} {caller : Scope}
    (h : call body f arguments caller position s = .error (.error e) s') :
    e.OtherAt position ∨ ∃ scope s₁, arguments.length = f.arity ∧
      enter f arguments caller.chain position s = .ok scope s₁ ∧
      body f.body scope s₁ = .error (.error e) s' := by
  unfold call at h
  split at h
  · next hcount =>
    rcases error_of_bind h with h | ⟨scope, s₁, henter, h⟩
    · exact Or.inl ((failsAt_enter ..).other h)
    · rcases error_of_bind h with h | ⟨_, _, _, h⟩
      · exact Or.inr ⟨scope, s₁, hcount, henter, h⟩
      · cases h
  · exact Or.inl ((failsAt_fail rfl).other h)

end Eval

/-! ## Constructs that fail themselves -/

namespace Code

/-- The place that the errors of a construct itself name. -/
def position? : Code → Option Position
  | .name _ position | .assign _ _ position | .accumulate _ _ position | .default _ _ position
  | .unary _ _ position | .binary _ _ _ position | .logical _ _ _ position
  | .branch _ _ _ position | .loop _ _ position | .function _ _ _ _ _ _ position
  | .apply _ _ position => some position
  | .primitive .print => some .nowhere
  | _ => none

/-- The construct itself looks the variable up, and fails with the error if it is not found. -/
inductive Seeks (x : String) : Code → RuntimeError → Prop
  | name {position} : Seeks x (.name x position) ⟨.scope (.undefined x), position⟩
  | accumulate {value position} :
    Seeks x (.accumulate x value position) ⟨.scope (.undefined x), position⟩
  | function {parameters channels locals free passed body position} (hx : x ∈ free) :
    Seeks x (.function parameters channels locals free passed body position)
      ⟨.capture x, position⟩
  | print (hx : x = "value") : Seeks x (.primitive .print) ⟨.scope (.undefined x), .nowhere⟩

/-- The error may be that of the construct itself in the scope. -/
structure Raises (code : Code) (scope : Scope) (s : Store) (e : RuntimeError) : Prop where
  position : code.position? = some e.position
  wanted : ∀ x, e.fault.wanted = some x → code.Seeks x e ∧ s.cell? scope x = none

variable {code : Code} {scope : Scope} {s : Store} {e : RuntimeError} {x : String}
  {position : Position}

theorem Raises.of_other (hposition : code.position? = some position) (he : e.OtherAt position) :
    code.Raises scope s e := by
  refine ⟨he.position ▸ hposition, fun x hx => ?_⟩
  cases he.wanted.symm.trans hx

theorem Seeks.raises (h : code.Seeks x e) (hnone : s.cell? scope x = none) :
    code.Raises scope s e := by
  have hwanted : e.fault.wanted = some x := by cases h <;> rfl
  refine ⟨?_, fun y hy => ?_⟩
  · cases h <;> rfl
  · cases hwanted.symm.trans hy
    exact ⟨h, hnone⟩

end Code

namespace Moment

/-- How the task of the moment comes to fail: a construct of its own fails itself, or a call that it
makes. -/
inductive Failed (m : Moment) (e : RuntimeError) (s' : State) : Prop
  | own {code s} (hwithin : m.Within ⟨m.level, .code code m.task.scope, s⟩)
    (hresult : result ⟨m.level, .code code m.task.scope, s⟩ = .error (.error e) s')
    (hraises : code.Raises m.task.scope s'.store e)
  | call {callee arguments position s f values s₁}
    (hwithin : m.Within ⟨m.level, .code (.apply callee arguments position) m.task.scope, s⟩)
    (hstarts : Starts ⟨m.level, .code (.apply callee arguments position) m.task.scope, s⟩
      ⟨m.level, .call f values m.task.scope position, s₁⟩)
    (hresult : result ⟨m.level, .call f values m.task.scope position, s₁⟩ =
      .error (.error e) s')

variable {m m' : Moment} {e : RuntimeError} {s s₁ s' : State} {level : Nat} {scope : Scope}
  {position : Position} {code : Code}

theorem Failed.of_starts (hstarts : m.Starts m') (hlevel : m'.level = m.level)
    (hscope : m'.task.scope = m.task.scope) (h : m'.Failed e s') : m.Failed e s' := by
  cases h with
  | own hwithin hresult hraises =>
    rw [hlevel, hscope] at hwithin hresult
    rw [hscope] at hraises
    exact .own (.head hstarts hwithin) hresult hraises
  | call hwithin hcall hresult =>
    rw [hlevel, hscope] at hwithin hcall hresult
    exact .call (.head hstarts hwithin) hcall hresult

/-- The failure of a construct itself, not for want of a variable. -/
theorem Failed.other (hresult : result ⟨level, .code code scope, s⟩ = .error (.error e) s')
    (hposition : code.position? = some position) (he : e.OtherAt position) :
    Failed ⟨level, .code code scope, s⟩ e s' :=
  .own .refl hresult (.of_other hposition he)

/-- The failure of a construct itself for want of a variable. -/
theorem Failed.sought {x : String}
    (hresult : result ⟨level, .code code scope, s⟩ = .error (.error e) s')
    (hseeks : code.Seeks x e) (hnone : s'.store.cell? scope x = none) :
    Failed ⟨level, .code code scope, s⟩ e s' :=
  .own .refl hresult (hseeks.raises hnone)

end Moment

namespace Code

/-- Whenever the code fails, it is known where the error comes from. -/
def Traced (level : Nat) (scope : Scope) (code : Code) : Prop :=
  ∀ {s : State} {e : RuntimeError} {s' : State}, Moment.Fine ⟨level, .code code scope, s⟩ →
    code.run (level + 1) scope s = .error (.error e) s' →
      Moment.Failed ⟨level, .code code scope, s⟩ e s'

end Code

open Code

namespace Moment

variable {e : RuntimeError} {s s₁ s' : State} {level : Nat} {scope : Scope} {position : Position}
  {code part : Code}

/-- A part that fails makes the task fail. -/
theorem failed_of_part {m : Moment} (hm : m.Fine)
    (hstarts : m.Starts ⟨level, .code part scope, s₁⟩) (hlevel : level = m.level)
    (hscope : scope = m.task.scope) (hpart : part.Traced level scope)
    (h : part.run (level + 1) scope s₁ = .error (.error e) s') : m.Failed e s' :=
  (hpart (hstarts.leads hm).fine h).of_starts hstarts hlevel hscope

/-- The rounds of a loop fail where its condition or its body does, or for the values of the
condition. -/
theorem failed_of_rounds {condition body : Code} {bound : Nat}
    (hcondition : condition.Traced level scope) (hbody : body.Traced level scope)
    (hm : Fine ⟨level, .rounds condition body scope position bound, s⟩)
    (h : result ⟨level, .rounds condition body scope position bound, s⟩ =
      .error (.error e) s') :
    Failed ⟨level, .rounds condition body scope position bound, s⟩ e s' ∨ e.OtherAt position := by
  induction bound generalizing s with
  | zero => cases h
  | succ bound ih =>
    rcases failure_of_withOperand h with h | h | ⟨test, s₁, hcond, hsignal, h⟩
    · exact Or.inl (failed_of_part hm .condition rfl rfl hcondition h)
    · exact Or.inr h
    · cases htest : test.isTruthy with
      | false =>
        rw [htest] at h
        cases h
      | true =>
        rw [htest] at h
        rcases error_of_bind h with h | ⟨values, s₂, hvalues, h⟩
        · exact Or.inl (failed_of_part hm (.body ⟨hcond, hsignal⟩ htest) rfl rfl hbody h)
        · split at h
          · cases h
          · cases h
          · next hbreak hreturn =>
            have hround : Starts ⟨level, .rounds condition body scope position (bound + 1), s⟩
                ⟨level, .rounds condition body scope position bound, s₂⟩ :=
              .round ⟨hcond, hsignal⟩ htest hvalues (Value.goesOn_of_ne hbreak hreturn)
            exact (ih (hround.leads hm).fine h).imp_left (·.of_starts hround rfl rfl)

/-- A default assignment never misses a variable: once it has written, all targets have cells. -/
theorem otherAt_of_fillIn {targets : List String} {value : Code} {values : List Value}
    (hm : Fine ⟨level, .code (.default targets value position) scope, s⟩)
    (hvalue : value.Passes level scope s values s₁)
    (h : fillIn scope position targets (s.store.valuesOrNil scope targets) values s₁ =
      .error (.error e) s') : e.OtherAt position := by
  obtain ⟨hs₁, hframe, he⟩ := of_value hm rfl (.head _) hvalue
  have hends : AllOrNothing (fillIn scope position targets (s.store.valuesOrNil scope targets)
      values s₁) targets values
      (Store.defaultWrites targets (s.store.valuesOrNil scope targets) values) scope position s₁
      fun store => store.valuesOrNil scope targets :=
    .of_steps hs₁ hframe (targets.mapM fun x => readName scope x position) rfl
      fun store hcount hset => readNames_eq fun x hx =>
        cell?_of_defaults he hcount hs₁ hframe (Store.defaultWrites_eq ..) hset hx
  cases hends with
  | written _ _ _ hresult => cases hresult.symm.trans h
  | miscounted _ hresult | mistyped _ _ hresult =>
    cases hresult.symm.trans h
    exact ⟨rfl, rfl⟩

/-- Of the library only printing can fail, for want of what is to be printed. -/
theorem error_of_primitive {primitive : Primitive}
    (h : (Code.primitive primitive).run (level + 1) scope s = .error (.error e) s') :
    primitive = .print ∧ e = ⟨.scope (.undefined "value"), .nowhere⟩ ∧
      s'.store.cell? scope "value" = none := by
  cases primitive with
  | print =>
    rcases error_of_bind h with hread | ⟨_, _, _, h'⟩
    · obtain ⟨rfl, he, hnone⟩ := error_of_readName hread
      cases he
      exact ⟨rfl, rfl, hnone⟩
    · rcases error_of_bind h' with h' | ⟨_, _, _, h'⟩
      · cases h'
      · cases h'
  | clock => cases h

/-- Code that fails makes the whole fail; the errors of the whole itself name its place. -/
theorem traced_of_code (code : Code) : code.Traced level scope := by
  -- What fails is a part, or what the construct does once its parts have values.
  induction code with
  | literal | nothing | «break» | «continue» =>
    intro s e s' hm h
    cases h
  | name x position =>
    intro s e s' hm h
    rcases error_of_bind h with hread | ⟨_, _, _, h'⟩
    · obtain ⟨rfl, he, hnone⟩ := error_of_readName hread
      cases he
      exact .sought h .name hnone
    · cases h'
  | sequence first rest ihfirst ihrest =>
    intro s e s' hm h
    rcases error_of_unlessSignal h with h | ⟨values, s₁, hfirst, hsignal, h⟩
    · exact failed_of_part hm (.first rfl) rfl rfl ihfirst h
    · exact failed_of_part hm (.sequence ⟨hfirst, hsignal⟩) rfl rfl ihrest h
  | both first rest ihfirst ihrest =>
    intro s e s' hm h
    rcases error_of_unlessSignal h with h | ⟨values, s₁, hfirst, hsignal, h⟩
    · exact failed_of_part hm (.first rfl) rfl rfl ihfirst h
    · rcases error_of_unlessSignal h with h | ⟨_, _, _, _, h⟩
      · exact failed_of_part hm (.both ⟨hfirst, hsignal⟩) rfl rfl ihrest h
      · cases h
  | assign targets value position ih =>
    intro s e s' hm h
    rcases error_of_unlessSignal h with h' | ⟨values, s₁, -, -, h'⟩
    · exact failed_of_part hm (.first rfl) rfl rfl ih h'
    · refine .other h rfl (FailsAt.other ?_ h')
      exact (failsAt_matchCounts ..).bind fun _ =>
        (failsAt_assignAll _).bind fun _ => failsAt_pure _
  | accumulate target value position ih =>
    intro s e s' hm h
    rcases failure_of_withOperand h with h' | he | ⟨operand, s₁, -, -, h'⟩
    · exact failed_of_part hm (.first rfl) rfl rfl ih h'
    · exact .other h rfl he
    · rcases error_of_bind h' with h' | ⟨current, s₂, -, h'⟩
      · obtain ⟨rfl, he, hnone⟩ := error_of_readName h'
        cases he
        exact .sought h .accumulate hnone
      · refine .other h rfl (FailsAt.other ?_ h')
        exact (failsAt_operate _).bind fun _ =>
          (failsAt_assignName _ _).bind fun _ => failsAt_pure _
  | default targets value position ih =>
    intro s e s' hm h
    have hself := h
    rw [Code.run_default] at h
    split at h
    · cases h
    · next hnil =>
      rcases error_of_unlessSignal h with h | ⟨values, s₁, hvalue, hsignal, h⟩
      · exact failed_of_part hm (.default (Bool.eq_false_iff.2 hnil)) rfl rfl ih h
      · exact .other hself rfl (otherAt_of_fillIn hm ⟨hvalue, hsignal⟩ h)
  | unary op operand position ih =>
    intro s e s' hm h
    rcases failure_of_withOperand h with h' | he | ⟨v, s₁, -, -, h'⟩
    · exact failed_of_part hm (.first rfl) rfl rfl ih h'
    · exact .other h rfl he
    · refine .other h rfl (FailsAt.other ?_ h')
      exact (failsAt_operate _).bind fun _ => failsAt_pure _
  | binary op left right position ihleft ihright =>
    intro s e s' hm h
    rcases failure_of_withOperand h with h' | he | ⟨a, s₁, hleft, hsignal, h'⟩
    · exact failed_of_part hm (.first rfl) rfl rfl ihleft h'
    · exact .other h rfl he
    · rcases failure_of_withOperand h' with h' | he | ⟨b, s₂, -, -, h'⟩
      · exact failed_of_part hm (.binary ⟨hleft, hsignal⟩) rfl rfl ihright h'
      · exact .other h rfl he
      · refine .other h rfl (FailsAt.other ?_ h')
        exact (failsAt_operate _).bind fun _ => failsAt_pure _
  | logical decides left right position ihleft ihright =>
    intro s e s' hm h
    rcases failure_of_withOperand h with h' | he | ⟨a, s₁, hleft, hsignal, h'⟩
    · exact failed_of_part hm (.first rfl) rfl rfl ihleft h'
    · exact .other h rfl he
    · split at h'
      · cases h'
      · next hgo => exact failed_of_part hm (.logical ⟨hleft, hsignal⟩ hgo) rfl rfl ihright h'
  | branch condition yes no position ihcondition ihyes ihno =>
    intro s e s' hm h
    rcases failure_of_withOperand h with h' | he | ⟨test, s₁, hcond, hsignal, h'⟩
    · exact failed_of_part hm (.first rfl) rfl rfl ihcondition h'
    · exact .other h rfl he
    · split at h'
      · next htest => exact failed_of_part hm (.yes ⟨hcond, hsignal⟩ htest) rfl rfl ihyes h'
      · next htest =>
        have hfalse := Bool.eq_false_iff.2 htest
        exact failed_of_part hm (.no ⟨hcond, hsignal⟩ hfalse) rfl rfl ihno h'
  | loop condition body position ihcondition ihbody =>
    intro s e s' hm h
    have hloop : Starts ⟨level, .code (.loop condition body position) scope, s⟩
        ⟨level, .rounds condition body scope position level, s⟩ := .loop
    rcases failed_of_rounds ihcondition ihbody (hloop.leads hm).fine h with h' | he
    · exact h'.of_starts hloop rfl rfl
    · exact .other h rfl he
  | «return» operand ih =>
    intro s e s' hm h
    rcases error_of_unlessSignal h with h | ⟨values, s₁, -, -, h⟩
    · exact failed_of_part hm (.first rfl) rfl rfl ih h
    · cases h
  | function parameters channels locals free passed body position =>
    intro s e s' hm h
    rcases error_of_bind h with h' | ⟨captured, s₁, -, h'⟩
    · obtain ⟨x, hx, rfl, he, hnone⟩ := error_of_captureAll h'
      cases he
      exact .sought h (.function hx) hnone
    · rcases error_of_bind h' with h' | ⟨_, _, _, h'⟩
      · cases h'
      · rcases error_of_bind h' with h' | ⟨_, _, _, h'⟩
        · cases h'
        · cases h'
  | apply callee arguments position ihcallee iharguments =>
    intro s e s' hm h
    rcases failure_of_withOperand h with h' | he | ⟨v, s₁, hcallee, hsignal, h'⟩
    · exact failed_of_part hm (.first rfl) rfl rfl ihcallee h'
    · exact .other h rfl he
    · cases v with
      | function f =>
        rcases error_of_unlessSignal h' with h' | ⟨values, s₂, harguments, hsignal', h'⟩
        · exact failed_of_part hm (.arguments ⟨hcallee, hsignal⟩) rfl rfl iharguments h'
        · exact .call .refl (.apply ⟨hcallee, hsignal⟩ ⟨harguments, hsignal'⟩) h'
      | _ => exact .other h rfl ((failsAt_fail rfl).other h')
  | primitive primitive =>
    intro s e s' hm h
    obtain ⟨rfl, rfl, hnone⟩ := error_of_primitive h
    exact .sought h (.print rfl) hnone

/-- When code fails, some construct that is evaluated for it, in a call or not, fails itself with
the error. -/
theorem raised_of_code {level : Nat} {code : Code} {scope : Scope} {s : State}
    (hm : Fine ⟨level, .code code scope, s⟩)
    (h : code.run (level + 1) scope s = .error (.error e) s') :
    ∃ level' part scope' s₁, Within ⟨level, .code code scope, s⟩ ⟨level', .code part scope', s₁⟩ ∧
      result ⟨level', .code part scope', s₁⟩ = .error (.error e) s' ∧
      part.Raises scope' s'.store e := by
  -- The body of a call runs on a lower level.
  cases traced_of_code code hm h with
  | own hwithin hresult hraises => exact ⟨_, _, _, _, hwithin, hresult, hraises⟩
  | call hwithin hstarts hresult =>
    rcases failure_of_call hresult with he | ⟨inner, s₁, hcount, henter, h⟩
    · exact ⟨_, _, _, _, hwithin, hstarts.error hresult, .of_other rfl he⟩
    · cases level with
      | zero => cases h
      | succ level =>
        have hbody : Within ⟨level + 1, .code code scope, s⟩ _ :=
          (hwithin.tail hstarts).tail (.enter hcount henter)
        obtain ⟨level', part, scope', s₂, hpart, hraised⟩ :=
          raised_of_code (hbody.leads hm).fine h
        exact ⟨level', part, scope', s₂, hbody.trans hpart, hraised⟩
termination_by level

end Moment

end Scripting

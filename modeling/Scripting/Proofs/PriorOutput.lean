import Scripting.Proofs.Sessions

/-!
# Proofs: what was printed before

Nothing that evaluates or runs reads the output: it only writes behind what is there. So a
computation commutes with putting a text in front of the output, and what it does and what it
prints depends on the rest of the state alone. Unlike for alike code, places are kept: the same
code is run from both states.
-/

namespace Scripting

/-! ## Computations that commute with a change of the state -/

section Commutes

variable {ε σ α β : Type}

/-- The result with its state changed. -/
def shifted (shift : σ → σ) : EStateM.Result ε σ α → EStateM.Result ε σ α
  | .ok a s => .ok a (shift s)
  | .error e s => .error e (shift s)

/-- It makes no difference whether the state is changed before the computation or after it. -/
def Commutes (shift : σ → σ) (m : EStateM ε σ α) : Prop :=
  ∀ s, m (shift s) = shifted shift (m s)

variable {shift : σ → σ} {m n : EStateM ε σ α}

theorem commutes_pure (shift : σ → σ) (a : α) :
    Commutes shift (pure a : EStateM ε σ α) :=
  fun _ => rfl

theorem commutes_throw (shift : σ → σ) (e : ε) :
    Commutes shift (throw e : EStateM ε σ α) :=
  fun _ => rfl

theorem Commutes.bind {f : α → EStateM ε σ β} (h : Commutes shift m)
    (hf : ∀ a, Commutes shift (f a)) : Commutes shift (m >>= f) := by
  intro s
  have hm := h s
  cases hs : m s with
  | ok a s₁ =>
    rw [hs] at hm
    rw [bind_ok hs, bind_ok hm]
    exact hf a s₁
  | error e s₁ =>
    rw [hs] at hm
    rw [bind_error hs, bind_error hm]
    rfl

theorem Commutes.ite {c : Prop} [Decidable c] (hm : Commutes shift m) (hn : Commutes shift n) :
    Commutes shift (if c then m else n) := by
  split
  · exact hm
  · exact hn

/-- Looking first at what the change leaves alone. -/
theorem commutes_get {f : σ → EStateM ε σ α} (hsame : ∀ s, f (shift s) = f s)
    (hf : ∀ s, Commutes shift (f s)) : Commutes shift (get >>= f) := by
  intro s
  show f (shift s) (shift s) = _
  rw [hsame]
  exact hf s s

theorem commutes_mapM {ι : Type} {f : ι → EStateM ε σ α} (h : ∀ i, Commutes shift (f i)) :
    ∀ l : List ι, Commutes shift (l.mapM f)
  | [] => commutes_pure shift []
  | i :: rest => by
    rw [List.mapM_cons]
    exact (h i).bind fun a => (commutes_mapM h rest).bind fun as => commutes_pure shift (a :: as)

end Commutes

/-! ## Evaluation -/

/-- The state if `before` had been printed before. -/
def State.behind (before : String) (s : State) : State :=
  { s with output := before ++ s.output }

namespace Eval

/-- What was printed before makes no difference. -/
abbrev Indifferent {α : Type} (m : Eval α) : Prop :=
  ∀ before, Commutes (State.behind before) m

variable {α : Type} {scope : Scope} {position : Position}

theorem indifferent_pure (a : α) : Indifferent (pure a) :=
  fun before => commutes_pure (State.behind before) a

theorem indifferent_fail (fault : RuntimeFault) (position : Position) :
    Indifferent (fail fault position : Eval α) :=
  fun before => commutes_throw (State.behind before) _

theorem Indifferent.bind {β : Type} {m : Eval α} {f : α → Eval β} (h : Indifferent m)
    (hf : ∀ a, Indifferent (f a)) : Indifferent (m >>= f) :=
  fun before => (h before).bind fun a => hf a before

theorem Indifferent.ite {c : Prop} [Decidable c] {m n : Eval α} (hm : Indifferent m)
    (hn : Indifferent n) : Indifferent (if c then m else n) :=
  fun before => (hm before).ite (hn before)

/-- Looking first at all but the output. -/
theorem indifferent_get {f : State → Eval α} (hsame : ∀ before s, f (State.behind before s) = f s)
    (hf : ∀ s, Indifferent (f s)) : Indifferent (get >>= f) :=
  fun before => commutes_get (hsame before) fun s => hf s before

theorem indifferent_inspect (position : Position) (look : Store → Except ScopeFault α) :
    Indifferent (inspect position look) := by
  refine indifferent_get (fun _ _ => rfl) fun s => ?_
  cases look s.store with
  | ok a => exact indifferent_pure a
  | error fault => exact indifferent_fail _ _

theorem indifferent_update (change : Store → Store) : Indifferent (update change) :=
  fun _ _ => rfl

theorem indifferent_operate (position : Position) (result : Except OperandFault Value) :
    Indifferent (operate position result) := by
  cases result with
  | ok value => exact indifferent_pure value
  | error fault => exact indifferent_fail _ _

theorem indifferent_print (text : String) : Indifferent (print text) := by
  intro before s
  show EStateM.Result.ok () { s with output := before ++ s.output ++ text } = _
  rw [String.append_assoc]
  rfl

theorem indifferent_readClock : Indifferent readClock :=
  fun _ _ => rfl

theorem indifferent_readName (scope : Scope) (name : String) (position : Position) :
    Indifferent (readName scope name position) :=
  indifferent_inspect _ _

theorem indifferent_assignName (scope : Scope) (position : Position) (name : String)
    (value : Value) : Indifferent (assignName scope position name value) :=
  (indifferent_inspect _ _).bind fun _ => indifferent_update _

theorem indifferent_assignNames (scope : Scope) (position : Position) :
    ∀ writes, Indifferent (assignNames scope position writes)
  | [] => indifferent_pure ()
  | (name, value) :: rest => (indifferent_assignName scope position name value).bind fun _ =>
    indifferent_assignNames scope position rest

theorem indifferent_assignAll (scope : Scope) (position : Position)
    (writes : List (String × Value)) : Indifferent (assignAll scope position writes) :=
  (indifferent_inspect _ _).bind fun _ => indifferent_assignNames scope position writes

/-! ### Constructs -/

variable {part : Eval (List Value)}

theorem indifferent_unlessSignal {next : List Value → Eval (List Value)} (h : Indifferent part)
    (hnext : ∀ values, Indifferent (next values)) : Indifferent (unlessSignal part next) :=
  h.bind fun values => (indifferent_pure values).ite (hnext values)

theorem indifferent_single (position : Position) (values : List Value) :
    Indifferent (single position values) := by
  match values with
  | [value] => exact indifferent_pure value
  | [] | _ :: _ :: _ => exact indifferent_fail _ _

theorem indifferent_withOperand {next : Value → Eval (List Value)} (h : Indifferent part)
    (hnext : ∀ value, Indifferent (next value)) : Indifferent (withOperand part position next) :=
  indifferent_unlessSignal h fun values => (indifferent_single position values).bind hnext

theorem indifferent_matchCounts (targets : List String) (values : List Value)
    (position : Position) : Indifferent (matchCounts targets values position) :=
  (indifferent_pure ()).ite (indifferent_fail _ _)

theorem indifferent_iterate {condition body : Eval (List Value)}
    (hcondition : Indifferent condition) (hbody : Indifferent body) :
    ∀ bound, Indifferent (iterate condition body position bound)
  | 0 => fun before => commutes_throw (State.behind before) _
  | bound + 1 => by
    refine indifferent_withOperand hcondition fun test => Indifferent.ite ?_ (indifferent_pure _)
    refine hbody.bind fun result => ?_
    split
    · exact indifferent_pure _
    · exact indifferent_pure _
    · exact indifferent_iterate hcondition hbody bound

theorem indifferent_captureAll (scope : Scope) (position : Position) :
    ∀ (names : List String) (captured : NameMap CellId),
      Indifferent (captureAll scope position captured names)
  | [], captured => indifferent_pure captured
  | name :: rest, captured => by
    refine indifferent_get (fun _ _ => rfl) fun s => ?_
    cases s.store.cell? scope name with
    | some cell => exact indifferent_captureAll scope position rest _
    | none => exact indifferent_fail _ _

theorem indifferent_captureFound (scope : Scope) (captured : NameMap CellId)
    (names : List String) : Indifferent (captureFound scope captured names) :=
  indifferent_get (fun _ _ => rfl) fun _ => indifferent_pure _

theorem indifferent_enter (f : Function) (arguments : List Value) (outer : List FrameId)
    (position : Position) : Indifferent (enter f arguments outer position) := by
  have hframe : Indifferent (newFrame f.captured) := fun _ _ => rfl
  refine hframe.bind fun frame => ?_
  refine (indifferent_assignNames _ position _).bind fun _ => ?_
  exact (indifferent_assignNames _ position _).bind fun _ => indifferent_pure _

theorem indifferent_call {body : Code → Scope → Eval (List Value)}
    (hbody : ∀ code scope, Indifferent (body code scope)) (f : Function) (arguments : List Value)
    (caller : Scope) (position : Position) :
    Indifferent (call body f arguments caller position) := by
  refine Indifferent.ite ?_ (indifferent_fail _ _)
  refine (indifferent_enter f arguments caller.chain position).bind fun scope => ?_
  exact (hbody f.body scope).bind fun values => indifferent_pure _

theorem indifferent_primitive (p : Primitive) (scope : Scope) :
    Indifferent (primitive p scope) := by
  cases p with
  | print =>
    refine (indifferent_readName scope "value" .nowhere).bind fun v => ?_
    exact (indifferent_print _).bind fun _ => indifferent_pure []
  | clock => exact indifferent_readClock.bind fun _ => indifferent_pure _

end Eval

open Eval

namespace Code

theorem indifferent_evaluate
    {call : Function → List Value → Scope → Position → Eval (List Value)} {bound : Nat}
    (hcall : ∀ f values scope position, Indifferent (call f values scope position))
    (code : Code) (scope : Scope) : Indifferent (code.evaluate call bound scope) := by
  induction code with
  | literal value => exact indifferent_pure _
  | name x position =>
    exact (indifferent_readName scope x position).bind fun v => indifferent_pure _
  | nothing | «break» | «continue» => exact indifferent_pure _
  | sequence first rest ihfirst ihrest => exact indifferent_unlessSignal ihfirst fun _ => ihrest
  | both first rest ihfirst ihrest =>
    exact indifferent_unlessSignal ihfirst fun left =>
      indifferent_unlessSignal ihrest fun right => indifferent_pure (left ++ right)
  | assign targets value position ih =>
    refine indifferent_unlessSignal ih fun values => ?_
    refine (indifferent_matchCounts targets values position).bind fun _ => ?_
    exact (indifferent_assignAll scope position _).bind fun _ => indifferent_pure values
  | accumulate target value position ih =>
    refine indifferent_withOperand ih fun operand => ?_
    refine (indifferent_readName scope target position).bind fun current => ?_
    refine (indifferent_operate position _).bind fun sum => ?_
    exact (indifferent_assignName scope position target sum).bind fun _ => indifferent_pure _
  | default targets value position ih =>
    refine indifferent_get (fun _ _ => rfl) fun s => (indifferent_pure _).ite ?_
    refine indifferent_unlessSignal ih fun values => ?_
    refine (indifferent_matchCounts targets values position).bind fun _ => ?_
    refine (indifferent_assignAll scope position _).bind fun _ => ?_
    exact fun before => commutes_mapM (fun target => indifferent_readName scope target position
      before) targets
  | unary op operand position ih =>
    exact indifferent_withOperand ih fun value =>
      (indifferent_operate position _).bind fun result => indifferent_pure _
  | binary op left right position ihleft ihright =>
    exact indifferent_withOperand ihleft fun a => indifferent_withOperand ihright fun b =>
      (indifferent_operate position _).bind fun result => indifferent_pure _
  | logical decides left right position ihleft ihright =>
    exact indifferent_withOperand ihleft fun value => (indifferent_pure [value]).ite ihright
  | branch condition yes no position ihcondition ihyes ihno =>
    exact indifferent_withOperand ihcondition fun test => ihyes.ite ihno
  | loop condition body position ihcondition ihbody =>
    exact indifferent_iterate ihcondition ihbody bound
  | «return» operand ih =>
    exact indifferent_unlessSignal ih fun values => indifferent_pure _
  | function parameters channels locals free passed body position =>
    have hid : Indifferent newFunctionId := fun _ _ => rfl
    refine (indifferent_captureAll scope position free ∅).bind fun captured => ?_
    refine (indifferent_captureFound scope captured passed).bind fun captured => ?_
    exact hid.bind fun id => indifferent_pure _
  | apply callee arguments position ihcallee iharguments =>
    refine indifferent_withOperand ihcallee fun v => ?_
    cases v with
    | function f =>
      exact indifferent_unlessSignal iharguments fun values => hcall f values scope position
    | _ => exact indifferent_fail _ _
  | primitive p => exact indifferent_primitive p scope

/-- Running code comes to the same whatever was printed before, and prints behind it. -/
theorem indifferent_run : ∀ fuel code scope, Indifferent (run fuel code scope)
  | 0, _, _ => fun before => commutes_throw (State.behind before) _
  | fuel + 1, code, scope =>
    indifferent_evaluate (indifferent_call (indifferent_run fuel)) code scope

end Code

/-! ## Sessions -/

namespace Session

/-- The session if `before` had been printed before. -/
def behind (before : String) (s : Session) : Session :=
  { s with state := s.state.behind before }

variable {before : String}

theorem commutes_evaluating {α : Type} {work : Eval α} (h : Indifferent work) :
    Commutes (behind before) (evaluating work) := by
  intro s
  have hwork := h before s.state
  unfold evaluating behind
  dsimp only
  rw [hwork]
  cases work s.state <;> rfl

theorem commutes_orStop {α ε : Type} (kind : ε → Error) (result : Except ε α) :
    Commutes (behind before) (orStop kind result) := by
  cases result with
  | ok a => exact commutes_pure _ a
  | error e => exact commutes_throw _ _

theorem commutes_printIf (shown : Bool) (text : String) :
    Commutes (behind before) (printIf shown text) :=
  (commutes_evaluating (indifferent_print text)).ite (commutes_pure _ ())

theorem commutes_prepare (display : Display) (source : String) :
    Commutes (behind before) (prepare display source) := by
  have hparsed : Commutes (behind before) (parsed source) := by
    refine (commutes_orStop _ _).bind fun tokens => ?_
    split
    · exact commutes_pure _ _
    · exact commutes_throw _ _
  unfold prepare
  refine hparsed.bind fun root => (commutes_printIf _ _).bind fun _ => ?_
  refine commutes_get (fun _ => rfl) fun s => (commutes_orStop _ _).bind fun program => ?_
  refine Commutes.bind (fun _ => rfl) fun _ => ?_
  exact (commutes_printIf _ _).bind fun _ => commutes_orStop _ _

/-- A run comes to the same whatever was printed before, and prints behind it. -/
theorem commutes_run (fuel : Nat) (display : Display) (source : String) :
    Commutes (behind before) (run fuel display source) := by
  rw [run_eq]
  refine (commutes_prepare display source).bind fun code => ?_
  refine (commutes_evaluating (Code.indifferent_run fuel code .global)).bind fun values => ?_
  exact commutes_pure _ _

/-- What a run prints stands behind what was printed before. -/
theorem output_of_run (fuel : Nat) (display : Display) (source : String) (a : Session) :
    match run fuel display source a with
    | .ok _ b | .error _ b => ∃ printed, b.state.output = a.state.output ++ printed := by
  have hrun : run fuel display source a = shifted (behind a.state.output)
      (run fuel display source { a with state := { a.state with output := "" } }) := by
    rw [← commutes_run]
    show _ = run fuel display source { a with state :=
      { a.state with output := a.state.output ++ "" } }
    rw [String.append_empty]
  rw [hrun]
  cases run fuel display source { a with state := { a.state with output := "" } } with
  | ok _ b | error _ b => exact ⟨b.state.output, rfl⟩

end Session

end Scripting

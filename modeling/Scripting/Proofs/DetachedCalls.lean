import Scripting.Proofs.Literals

/-!
# Proofs: calls that do not see their caller

The scope of a call lies inside the frames of the caller. `runIn` is the evaluator with that choice
left open, and here is what does not depend on it: writes go to the frame of the scope alone, and a
name that this frame binds is found there first.
-/

namespace Scripting

namespace Scope

/-- No frames around the scope of a call. -/
def detached (_ : Scope) : List FrameId :=
  []

/-- The frame of the scope, without those around it. -/
def alone (scope : Scope) : Scope :=
  ⟨scope.frame, []⟩

end Scope

/-! ## The evaluator -/

/-- Calls a function in a scope inside the frames that `around` gives for the caller. -/
def Eval.callIn (around : Scope → List FrameId) (body : Code → Scope → Eval (List Value))
    (f : Function) (arguments : List Value) (caller : Scope) (position : Position) :
    Eval (List Value) := do
  if arguments.length = f.arity then
    let scope ← enter f arguments (around caller) position
    return returned (← body f.body scope)
  else fail (.argumentCount f.arity arguments.length) position

/-- Evaluates code with scopes of calls inside the frames that `around` gives. -/
def Code.runIn (around : Scope → List FrameId) : (fuel : Nat) → Code → Scope → Eval (List Value)
  | 0 => fun _ _ => Eval.exhausted
  | fuel + 1 => evaluate (Eval.callIn around (runIn around fuel)) fuel

/-- With the frames of the caller around the scopes of calls this is the evaluator. -/
theorem Code.runIn_chain (fuel : Nat) : runIn Scope.chain fuel = run fuel := by
  induction fuel with
  | zero => rfl
  | succ fuel ih =>
    have hcall : Eval.callIn Scope.chain (run fuel) = Eval.call (run fuel) := rfl
    rw [runIn, ih, hcall, run]

open Eval

/-! ## Parts that come to the same -/

theorem bind_same {ε σ α β : Type} {m m' : EStateM ε σ α} {f f' : α → EStateM ε σ β} {s : σ}
    (hm : m' s = m s) (hf : ∀ a s₁, m s = .ok a s₁ → f' a s₁ = f a s₁) :
    (m' >>= f') s = (m >>= f) s := by
  cases h : m s with
  | ok a s₁ => rw [bind_ok h, bind_ok (hm.trans h), hf a s₁ h]
  | error e s₁ => rw [bind_error h, bind_error (hm.trans h)]

namespace Eval

variable {s : State} {position : Position} {part part' : Eval (List Value)}

theorem unlessSignal_same {next next' : List Value → Eval (List Value)}
    (hpart : part' s = part s)
    (hnext : ∀ values s₁, part s = .ok values s₁ → Value.isSignal values = false →
      next' values s₁ = next values s₁) :
    unlessSignal part' next' s = unlessSignal part next s := by
  refine bind_same hpart fun values s₁ h => ?_
  cases hsignal : Value.isSignal values with
  | true => rfl
  | false => exact hnext values s₁ h hsignal

theorem matchCounts_same {α : Type} {targets : List String} {values : List Value}
    {next next' : Eval α} (hnext : next' s = next s) :
    (matchCounts targets values position >>= fun _ => next') s =
      (matchCounts targets values position >>= fun _ => next) s := by
  unfold matchCounts
  split
  · exact hnext
  · rfl

theorem withOperand_same {next next' : Value → Eval (List Value)} (hpart : part' s = part s)
    (hnext : ∀ v s₁, part s = .ok [v] s₁ → Value.isSignal [v] = false → next' v s₁ = next v s₁) :
    withOperand part' position next' s = withOperand part position next s := by
  refine unlessSignal_same hpart fun values s₁ h hsignal => ?_
  match values, h, hsignal with
  | [v], h, hsignal => exact hnext v s₁ h hsignal
  | [], _, _ => rfl
  | _ :: _ :: _, _, _ => rfl

end Eval

/-! ## What depends on the frame of the scope alone -/

namespace Store

variable {s : Store} {scope : Scope} {x : String}

theorem checkWrites_alone (s : Store) (scope : Scope) (pending : NameMap Value)
    (ws : List (String × Value)) :
    s.checkWrites scope.alone pending ws = s.checkWrites scope pending ws := by
  induction ws generalizing pending with
  | nil => rfl
  | cons w ws ih =>
    obtain ⟨x, v⟩ := w
    have hcheck : s.checkSet scope.alone x v = s.checkSet scope x v := rfl
    rw [checkWrites, checkWrites, hcheck, ih]

theorem cell?_alone_of_contains (h : s.contains scope x = true) :
    s.cell? scope.alone x = s.cell? scope x := by
  obtain ⟨cell, hown⟩ := Option.isSome_iff_exists.1 h
  have halone : s.ownCell? scope.alone x = some cell := hown
  rw [cell?_of_ownCell? hown, cell?_of_ownCell? halone]

theorem value?_congr {scope' : Scope} (h : s.cell? scope' x = s.cell? scope x) :
    s.value? scope' x = s.value? scope x := by
  unfold value?
  rw [h]

theorem valuesOrNil_congr {scope' : Scope} {names : List String}
    (h : ∀ x ∈ names, s.cell? scope' x = s.cell? scope x) :
    s.valuesOrNil scope' names = s.valuesOrNil scope names := by
  refine List.map_congr_left fun x hx => ?_
  rw [value?_congr (h x hx)]

end Store

namespace Eval

variable {s : State} {scope scope' : Scope} {position : Position}

theorem assignNames_alone (scope : Scope) (position : Position) (ws : List (String × Value)) :
    assignNames scope.alone position ws = assignNames scope position ws := by
  induction ws with
  | nil => rfl
  | cons w ws ih =>
    obtain ⟨x, v⟩ := w
    have hassign : assignName scope.alone position x v = assignName scope position x v := rfl
    rw [assignNames, assignNames, hassign, ih]

theorem assignAll_alone (scope : Scope) (position : Position) (ws : List (String × Value)) :
    assignAll scope.alone position ws = assignAll scope position ws := by
  have hcheck : (fun s : Store => s.checkAll scope.alone ws) = fun s => s.checkAll scope ws :=
    funext fun s => s.checkWrites_alone scope ∅ ws
  rw [assignAll, assignAll, hcheck, assignNames_alone]

/-- The frames around the scope of a call play no part while it is built. -/
theorem enter_outer (f : Function) (arguments : List Value) (outer : List FrameId)
    (position : Position) :
    enter f arguments [] position = do
      let scope ← enter f arguments outer position
      return scope.alone := by
  unfold enter
  simp only [bind_assoc, pure_bind]
  refine bind_congr fun frame => ?_
  have halone : ∀ ws, assignNames ⟨frame, []⟩ position ws =
      assignNames ⟨frame, outer⟩ position ws := assignNames_alone ⟨frame, outer⟩ position
  rw [halone, halone]
  rfl

/-- A call comes to the same if the body does in the frame of the scope alone. -/
theorem callIn_detached {body body' : Code → Scope → Eval (List Value)} {f : Function}
    {arguments : List Value} {caller caller' : Scope}
    (hbody : ∀ scope s₁, arguments.length = f.arity →
      enter f arguments caller.chain position s = .ok scope s₁ →
        body' f.body scope.alone s₁ = body f.body scope s₁) :
    callIn Scope.detached body' f arguments caller' position s =
      call body f arguments caller position s := by
  unfold callIn call
  split
  · next hcount =>
    rw [Scope.detached, enter_outer f arguments caller.chain position, bind_assoc]
    refine bind_same rfl fun scope s₁ henter => ?_
    rw [pure_bind]
    exact bind_same (hbody scope s₁ hcount henter) fun _ _ _ => rfl
  · rfl

theorem readName_congr {x : String} (h : s.store.cell? scope' x = s.store.cell? scope x) :
    readName scope' x position s = readName scope x position s := by
  have hvalue : s.store.value scope' x = s.store.value scope x := by
    unfold Store.value Store.cell
    rw [h]
  cases hlook : s.store.value scope x with
  | ok v => exact (inspect_of_ok (hvalue.trans hlook)).trans (inspect_of_ok hlook).symm
  | error fault => exact (inspect_of_error (hvalue.trans hlook)).trans (inspect_of_error hlook).symm

theorem captureAll_congr {names : List String} {before : NameMap CellId}
    (h : ∀ x ∈ names, s.store.cell? scope' x = s.store.cell? scope x) :
    captureAll scope' position before names s = captureAll scope position before names s := by
  induction names generalizing before with
  | nil => rfl
  | cons name names ih =>
    have hget : (get : Eval State) s = .ok s s := rfl
    rw [captureAll, captureAll, bind_ok hget, bind_ok hget, h name List.mem_cons_self]
    cases s.store.cell? scope name with
    | none => rfl
    | some cell => exact ih fun x hx => h x (List.mem_cons_of_mem _ hx)

theorem captureFound_congr {names : List String} {before : NameMap CellId}
    (h : ∀ x ∈ names, s.store.cell? scope' x = s.store.cell? scope x) :
    captureFound scope' before names s = captureFound scope before names s := by
  have hfound : ∀ scope, captureFound scope before names s =
      .ok (s.store.gather scope names before) s := fun _ => rfl
  rw [hfound, hfound, Store.gather_congr h]

theorem readNames_congr {names : List String}
    (h : ∀ x ∈ names, s.store.cell? scope' x = s.store.cell? scope x) :
    (names.mapM fun x => readName scope' x position) s =
      (names.mapM fun x => readName scope x position) s := by
  induction names with
  | nil => rfl
  | cons x names ih =>
    rw [List.mapM_cons, List.mapM_cons]
    refine bind_same (readName_congr (h x List.mem_cons_self)) fun v s₁ hread => ?_
    obtain ⟨rfl, -⟩ := ok_of_inspect hread
    exact bind_same (ih fun y hy => h y (List.mem_cons_of_mem _ hy)) fun _ _ _ => rfl

end Eval

end Scripting

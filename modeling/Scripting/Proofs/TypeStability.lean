import Scripting.Proofs.Policies
import Scripting.Proofs.Timeline

/-!
# Proofs: variables keep their types

Once a cell holds a value other than nil, it holds a value of that type for the rest of the session,
whatever runs and fails: each write is checked against what the cell holds. A write that is refused
leaves the whole store as it is, and ends the run.
-/

namespace Scripting

open Eval

/-! ## The type in a cell -/

namespace Store

/-- What is not nil in the first store is not nil and has the same type in the second. -/
def KeepsTypes (s s' : Store) : Prop :=
  ∀ cell, (s.read cell).isNil = false →
    (s'.read cell).isNil = false ∧ (s'.read cell).type = (s.read cell).type

variable {s s' s'' : Store} {scope : Scope} {x : String} {v current : Value}

theorem KeepsTypes.refl (s : Store) : s.KeepsTypes s :=
  fun _ h => ⟨h, rfl⟩

theorem KeepsTypes.trans (h : s.KeepsTypes s') (h' : s'.KeepsTypes s'') : s.KeepsTypes s'' := by
  intro cell hcell
  obtain ⟨hnil, htype⟩ := h cell hcell
  obtain ⟨hnil', htype'⟩ := h' cell hnil
  exact ⟨hnil', htype'.trans htype⟩

theorem type_of_checkType (h : checkType x current v = .ok ()) (hnil : current.isNil = false) :
    v.isNil = false ∧ v.type = current.type := by
  unfold checkType at h
  rw [hnil, Bool.false_or] at h
  split at h
  · next hsame =>
    have htype : current.type = v.type := of_decide_eq_true hsame
    refine ⟨?_, htype.symm⟩
    cases v with
    | nil =>
      cases current with
      | nil => exact hnil
      | _ => cases htype
    | _ => rfl
  · cases h

/-- A write that passes its check changes no type. -/
theorem keepsTypes_put (hs : s.Distinct) (h : s.checkSet scope x v = .ok ()) :
    s.KeepsTypes (s.put scope x v) := by
  intro cell hcell
  rw [read_put (fun _ _ => hs.cells)]
  split
  · next hwritten =>
    rcases hwritten with hown | ⟨-, rfl⟩
    · unfold checkSet at h
      rw [hown] at h
      exact type_of_checkType h hcell
    · -- A cell that is yet to be made holds nothing.
      unfold read at hcell
      rw [Array.getElem?_size] at hcell
      cases hcell
  · exact ⟨hcell, rfl⟩

end Store

/-- No type changes. -/
def Policy.typed : Policy where
  allows _ := True
  holds _ := True
  may := Store.KeepsTypes
  refl := Store.KeepsTypes.refl
  trans := Store.KeepsTypes.trans
  step _ _ := trivial
  made _ _ := trivial
  write h hcheck := Store.keepsTypes_put h.fine.sound.toDistinct hcheck
  frame _ := Store.KeepsTypes.refl _

/-! ## Along the time of a session -/

namespace Moment

variable {start a b : Moment} {s s' : State}

theorem Fine.typed (h : a.Fine) (hwithin : a.Within b) : Policy.typed.Good b := by
  refine Policy.typed.within ⟨h, ⟨h.sound, fun _ _ _ => trivial⟩, ?_, trivial⟩ hwithin
  cases a.task with
  | code | rounds => exact trivial
  | call => exact ⟨trivial, fun _ _ => trivial⟩
  | writes => exact fun _ _ => trivial

/-- No step of the time within a task changes a type. -/
theorem Follows.keepsTypes (h : start.Follows s s') (hstart : start.Fine) :
    s.store.KeepsTypes s'.store := by
  cases h with
  | comes ha hstep => exact (Policy.typed.given (hstart.typed ha) hstep).1
  | @ends a ha =>
    have hkeeps := Policy.typed.keeps (hstart.typed ha)
    cases hresult : a.result with
    | ok values s' =>
      rw [ending_of_ok hresult]
      exact (hkeeps.of_ok hresult).1
    | error e s' =>
      rw [ending_of_error hresult]
      exact (hkeeps.of_error hresult).1

end Moment

namespace Session

variable {s s' : State}

/-- The step lemma of time: no step changes a type. -/
theorem Follows.keepsTypes (h : Follows s s') : s.store.KeepsTypes s'.store :=
  h.of_moments Store.KeepsTypes.refl fun hstart hs => hs.keepsTypes hstart

/-- The run lemma of time: what comes later has the same types. -/
theorem Later.keepsTypes (h : Later s s') : s.store.KeepsTypes s'.store := by
  induction h with
  | refl => exact .refl _
  | tail _ hstep ih => exact ih.trans hstep.keepsTypes

end Session

/-! ## Writes that are refused -/

namespace Moment

/-- The task comes to a write that its check refuses for the type of the value, in the state `s`.
Several targets of an assignment are checked together. -/
inductive Refuses : Moment → ScopeFault → Position → State → Prop
  | write {level scope position x v ws s fault}
    (h : s.store.checkSet scope x v = .error fault) :
    Refuses ⟨level, .writes scope position ((x, v) :: ws), s⟩ fault position s
  | assign {level targets value position scope s values s₁ fault}
    (h : value.Passes level scope s values s₁) (hcount : values.length = targets.length)
    (hcheck : s₁.store.checkAll scope (targets.zip values) = .error fault) :
    Refuses ⟨level, .code (.assign targets value position) scope, s⟩ fault position s₁
  | default {level targets value position scope s values s₁ fault}
    (h : (s.store.valuesOrNil scope targets).all (fun v => !v.isNil) = false)
    (hvalue : value.Passes level scope s values s₁) (hcount : values.length = targets.length)
    (hcheck : s₁.store.checkAll scope
      (Store.defaultWrites targets (s.store.valuesOrNil scope targets) values) = .error fault) :
    Refuses ⟨level, .code (.default targets value position) scope, s⟩ fault position s₁

variable {m : Moment} {fault : ScopeFault} {position : Position} {s : State}

/-- A task ends where it comes to a write that is refused. -/
theorem Refuses.result (h : m.Refuses fault position s) :
    m.result = .error (.error ⟨.scope fault, position⟩) s := by
  have hassign : ∀ {scope ws} {next : Eval (List Value)} {s : State},
      s.store.checkAll scope ws = .error fault →
        (assignAll scope position ws >>= fun _ => next) s =
          .error (.error ⟨.scope fault, position⟩) s :=
    fun hcheck => bind_error (bind_error (inspect_of_error hcheck))
  cases h with
  | write h => exact bind_error (bind_error (bind_error (inspect_of_error h)))
  | assign h hcount hcheck =>
    exact (unlessSignal_of_ok h.1 h.2).trans
      ((bind_ok (matchCounts_of_eq hcount)).trans (hassign hcheck))
  | default h hvalue hcount hcheck =>
    refine (Code.run_default.trans (if_neg (Bool.eq_false_iff.1 h))).trans ?_
    exact (unlessSignal_of_ok hvalue.1 hvalue.2).trans
      ((bind_ok (matchCounts_of_eq hcount)).trans (hassign hcheck))

end Moment

/-- Over all sessions, also through runs that fail: a cell that holds a value other than nil holds
values of that type at every later time. And where a write is refused, the whole run ends with that
fault and in the very state in which the write was tried, so that all cells keep their content. -/
theorem variables_keep_types :
    (∀ s s' : State, Session.Later s s' → s.store.KeepsTypes s'.store) ∧
    ∀ (a b : Session) (display : Display) (source : String) (code : Code) (level : Nat)
      (m : Moment) (fault : ScopeFault) (position : Position) (s : State),
      a.Reachable → Session.prepare display source a = .ok code b →
      Moment.Within ⟨level, .code code .global, b.state⟩ m → m.Refuses fault position s →
        m.result = .error (.error ⟨.scope fault, position⟩) s ∧
        Session.run (level + 1) display source a =
          .error (.error (.runtime ⟨.scope fault, position⟩)) { b with state := s } := by
  refine ⟨fun s s' h => h.keepsTypes, ?_⟩
  intro a b display source code level m fault position s ha hprepare hm hrefuses
  have hend : code.run (level + 1) .global b.state = .error (.error ⟨.scope fault, position⟩) s :=
    hm.error hrefuses.result
  refine ⟨hrefuses.result, ?_⟩
  rw [Session.run_of_prepare hprepare, hend]
  rfl

/-- The second line gives a text to a variable that holds a whole number. The run ends there, and
the variable keeps its type. -/
theorem variables_keep_types_mistyped :
    ∃ (b : Session) (m : Moment) (s : State), m.Refuses (.typeMismatch "a" .int .string) ⟨2, 3⟩ s ∧
      (s.store.read 2).isNil = false ∧ (s.store.read 2).type = .int ∧
      Session.run 2 .plain "a := 1\na := \"x\"" (.start 0) =
        .error (.error (.runtime ⟨.scope (.typeMismatch "a" .int .string), ⟨2, 3⟩⟩)) b ∧
      Session.Later s b.state ∧ s.store.KeepsTypes b.state.store := by
  have hrefused : ∃ (code : Code) (b : Session) (m : Moment) (s : State),
      Session.prepare .plain "a := 1\na := \"x\"" (.start 0) = .ok code b ∧
      Moment.Within ⟨1, .code code .global, b.state⟩ m ∧
      m.Refuses (.typeMismatch "a" .int .string) ⟨2, 3⟩ s ∧ m.At s ∧
      (s.store.read 2).isNil = false ∧ (s.store.read 2).type = .int :=
    ⟨_, _, _, _, rfl, .tail .refl (.sequence ⟨rfl, rfl⟩), .assign ⟨rfl, rfl⟩ rfl rfl, .inl rfl,
      rfl, rfl⟩
  obtain ⟨code, b, m, s, hprepare, hm, hrefuses, hs, hnil, htype⟩ := hrefused
  obtain ⟨-, hlater⟩ := Session.later_of_within (.start 0) hprepare hm hs
  obtain ⟨hkept, hrefusals⟩ := variables_keep_types
  obtain ⟨-, hrun⟩ := hrefusals _ _ _ _ _ _ _ _ _ _ (.start 0) hprepare hm hrefuses
  rw [hrun] at hlater
  exact ⟨_, m, s, hrefuses, hnil, htype, hrun, hlater, hkept _ _ hlater⟩

end Scripting

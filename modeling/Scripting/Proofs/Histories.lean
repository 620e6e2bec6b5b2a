import Scripting.Proofs.Acceptance
import Scripting.Proofs.Failures
import Scripting.Proofs.Sources
import Scripting.Proofs.Timeline

/-!
# Proofs: the runs of a session

A history lists the runs that have led to a session, those that failed too. Each of them came before
the session, and all code in the session is from their sources. What fails as evaluation does comes
to a construct that fails itself.
-/

namespace Scripting

/-- A run with the sessions before and after it. -/
structure Run where
  source : String
  before : Session
  after : Session

/-- The run has happened. -/
def Run.Happened (r : Run) : Prop :=
  ∃ fuel display, r.after = ending (Session.run fuel display r.source r.before)

namespace Session

/-- The session comes after the runs, of which the first started in a new session. -/
inductive After : List Run → Session → Prop
  | start (clock : Clock) : After [] (.start clock)
  | next {runs a} (ha : After runs a) (fuel : Nat) (display : Display) (source : String) :
    After (runs ++ [⟨source, a, ending (run fuel display source a)⟩])
      (ending (run fuel display source a))
  | later {runs a} (ha : After runs a) (clock : Clock) :
    After runs { a with state := { a.state with output := "", clock := clock } }

variable {runs : List Run} {a : Session} {Q : Node → Prop}

theorem After.of_error {b : Session} {fuel : Nat} {display : Display} {source : String}
    {e : Stop Error} (h : After runs a) (hrun : run fuel display source a = .error e b) :
    After (runs ++ [⟨source, a, b⟩]) b := by
  have hnext := h.next fuel display source
  rw [hrun] at hnext
  exact hnext

theorem After.reachable (h : After runs a) : a.Reachable := by
  induction h with
  | start clock => exact .start clock
  | @next runs a _ fuel display source ih =>
    cases hrun : run fuel display source a with
    | ok values b => exact .run ih hrun
    | error e b => exact .failed ih hrun
  | later _ clock ih => exact .later ih clock

/-- All runs of a history have happened, each before the session. -/
theorem After.happened (h : After runs a) :
    ∀ r ∈ runs, r.Happened ∧ Later r.before.state a.state := by
  induction h with
  | start => exact fun r hr => absurd hr List.not_mem_nil
  | @next runs a ha fuel display source ih =>
    have hlater : Later a.state (ending (run fuel display source a)).state :=
      .single (.runs ha.reachable fuel display source)
    intro r hr
    rcases List.mem_append.1 hr with hr | hr
    · obtain ⟨hhappened, hbefore⟩ := ih r hr
      exact ⟨hhappened, hbefore.trans hlater⟩
    · cases List.mem_singleton.1 hr
      exact ⟨⟨fuel, display, rfl⟩, hlater⟩
  | later ha clock ih =>
    intro r hr
    obtain ⟨hhappened, hbefore⟩ := ih r hr
    exact ⟨hhappened, hbefore.tail (.later ha.reachable clock)⟩

theorem After.reachedBy (h : After runs a) (hQ : ∀ r ∈ runs, Reads Q r.source) :
    a.ReachedBy Q := by
  induction h with
  | start clock => exact .start clock
  | @next runs a _ fuel display source ih =>
    have hsource : Reads Q source := hQ ⟨source, a, _⟩ (List.mem_append_right _ List.mem_cons_self)
    have hruns := ih fun r hr => hQ r (List.mem_append_left _ hr)
    cases hrun : run fuel display source a with
    | ok values b => exact .run hruns hsource hrun
    | error e b => exact .failed hruns hsource hrun
  | later _ clock ih => exact .later (ih hQ) clock

/-! ## Runs that fail -/

/-- Nothing that a run does before it evaluates fails as evaluation does. -/
theorem prepare_ne_runtime {a b : Session} {display : Display} {source : String}
    {e : RuntimeError} : prepare display source a ≠ .error (.error (.runtime e)) b :=
  fun h => nomatch refuses_of_prepare h

/-- A run that fails in evaluation has made code of its source, and the code fails. -/
theorem failure_of_run {a b : Session} {fuel : Nat} {display : Display} {source : String}
    {e : RuntimeError} (hrun : run fuel display source a = .error (.error (.runtime e)) b) :
    ∃ code b' level, fuel = level + 1 ∧ prepare display source a = .ok code b' ∧
      Moment.result ⟨level, .code code .global, b'.state⟩ = .error (.error e) b.state := by
  rcases run_cases fuel display source a with ⟨e', b', hprepare, h⟩ | ⟨code, b', hprepare, -⟩
  · cases hrun.symm.trans h
    exact absurd hprepare prepare_ne_runtime
  rw [run_of_prepare hprepare] at hrun
  cases heval : code.run fuel .global b'.state with
  | ok values s =>
    rw [heval] at hrun
    cases hrun
  | error stop s =>
    rw [heval] at hrun
    cases stop with
    | outOfFuel => cases hrun
    | error e' =>
      cases hrun
      cases fuel with
      | zero => cases heval
      | succ level => exact ⟨code, b', level, rfl, hprepare, heval⟩

/-- A run that fails in evaluation comes to a construct that fails itself with the error. -/
theorem raised_of_run {a b : Session} {fuel : Nat} {display : Display} {source : String}
    {e : RuntimeError} (ha : a.Reachable)
    (hrun : run fuel display source a = .error (.error (.runtime e)) b) :
    ∃ code b' level c part scope, prepare display source a = .ok code b' ∧
      Moment.Within ⟨level, .code code .global, b'.state⟩ c ∧ c.task = .code part scope ∧
      c.At b.state ∧ part.Raises scope b.state.store e := by
  obtain ⟨code, b', level, -, hprepare, heval⟩ := failure_of_run hrun
  obtain ⟨level', part, scope, s₁, hwithin, hresult, hraises⟩ :=
    Moment.raised_of_code (fine_of_prepare ha.sound hprepare) heval
  exact ⟨code, b', level, _, part, scope, hprepare, hwithin, rfl, .inr (.inr ⟨_, hresult⟩),
    hraises⟩

end Session

end Scripting

import Scripting.Proofs.Sessions

/-!
# Proofs: signals never get among the data

A signal is a value that travels from a `return`, `break` or `continue` to the construct that takes
it in. It is never kept in a cell, never stands among other values and never comes out of a call or
a run; and only code inside a loop yields a break or continue.
-/

namespace Scripting

/-- No value is a signal. -/
def Value.NoSignals (values : List Value) : Prop :=
  ∀ v ∈ values, v.type ≠ .control

/-- No value is a signal, or there is nothing but one, and a return does not carry another. -/
def Value.DataOrSignal (values : List Value) : Prop :=
  Value.NoSignals values ∨
    ∃ signal, values = [.control signal] ∧
      ∀ payload, signal = .returning payload → Value.NoSignals payload

/-- No cell holds a signal. -/
def Store.NoSignals (s : Store) : Prop :=
  ∀ cell, (s.read cell).type ≠ .control

namespace Value

variable {s : Store} {loose : Prop} {values : List Value}

theorem AreData.noSignals (h : AreData s values) : NoSignals values :=
  fun v hv => (h v hv).not_control

theorem Yielded.dataOrSignal (h : Yielded s loose values) : DataOrSignal values := by
  cases h with
  | data h => exact Or.inl h.noSignals
  | returning h => exact Or.inr ⟨_, rfl, fun _ e => Signal.returning.inj e ▸ h.noSignals⟩
  | breaking | continuing => exact Or.inr ⟨_, rfl, nofun⟩

/-- A break or continue comes only from code that it can leave. -/
theorem Yielded.leaves (h : Yielded s loose values)
    (hv : values = [.control .breaking] ∨ values = [.control .continuing]) : loose := by
  cases h with
  | data h =>
    rcases hv with rfl | rfl
    · exact (h _ List.mem_cons_self).elim
    · exact (h _ List.mem_cons_self).elim
  | returning h => simp at hv
  | breaking h | continuing h => exact h

end Value

theorem Store.Sound.noSignals {s : Store} (h : s.Sound) : s.NoSignals :=
  fun cell => (h.data cell).not_control

namespace Moment

variable {m : Moment} {s' : State} {values : List Value}

theorem Fine.yields (hm : m.Fine) (h : m.result = .ok values s') :
    m.task.Yields s'.store values :=
  (hm.safe.of_ok h).2.2

theorem Fine.dataOrSignal (hm : m.Fine) (h : m.result = .ok values s') :
    Value.DataOrSignal values := by
  have hy := hm.yields h
  cases htask : m.task with
  | code | rounds =>
    rw [htask] at hy
    exact Value.Yielded.dataOrSignal hy
  | call =>
    rw [htask] at hy
    exact Or.inl (Value.AreData.noSignals hy)
  | writes =>
    rw [htask] at hy
    exact Or.inl (hy ▸ nofun)

end Moment

/-- In every reachable session and at every moment of its runs, no cell holds a signal; what code
yields is data or a single signal; calls and runs yield no signal; and a break or continue comes
only from code that was compiled inside a loop. -/
theorem signals_never_leak {a : Session} (ha : a.Reachable) :
    a.state.store.NoSignals ∧
    (∀ m, a.Visits m →
      (∀ s, m.At s → s.store.NoSignals) ∧
      ∀ values s', m.result = .ok values s' →
        Value.DataOrSignal values ∧
        (∀ f arguments caller position, m.task = .call f arguments caller position →
          Value.NoSignals values) ∧
        ∀ node analysis? path inLoop code scope, m.task = .code code scope →
          Node.compile analysis? inLoop path node = .ok code →
          values = [.control .breaking] ∨ values = [.control .continuing] → inLoop = true) ∧
    ∀ fuel display source values b, Session.run fuel display source a = .ok values b →
      Value.NoSignals values := by
  refine ⟨ha.sound.noSignals, fun m hm => ?_, fun fuel display source values b h => ?_⟩
  · have hfine := hm.fine ha
    refine ⟨fun s hs => (hfine.leads.at hs).1.noSignals, fun values s' h => ?_⟩
    have hy := hfine.yields h
    refine ⟨hfine.dataOrSignal h, ?_, ?_⟩
    · intro f arguments caller position htask
      rw [htask] at hy
      exact Value.AreData.noSignals hy
    · intro node analysis? path inLoop code scope htask hcode hv
      rw [htask] at hy
      exact Node.escapes_of_compile node hcode (Value.Yielded.leaves hy hv)
  · have hrun := Session.sound_of_run ha.sound fuel display source
    rw [h] at hrun
    exact hrun.2.noSignals

/-- The body of the loop yields a break, which the loop takes in: no cell holds it and the run does
not yield it. -/
theorem signals_never_leak_from_loop :
    ∃ m s', (Session.start 0).Visits m ∧ m.result = .ok [.control .breaking] s' ∧
      s'.store.NoSignals ∧
      Session.run 5 .plain "while true { break }" (.start 0) = .ok [.bool false] (.start 0) ∧
      Value.NoSignals [.bool false] := by
  have hprepare : Session.prepare .plain "while true { break }" (.start 0) =
      .ok (.loop (.literal (.bool true)) .break ⟨1, 1⟩) (.start 0) := rfl
  have hvisits : (Session.start 0).Visits ⟨4, .code .break .global, (Session.start 0).state⟩ :=
    ⟨_, _, _, _, 4, hprepare, .tail (.tail .refl .loop) (.body ⟨rfl, rfl⟩ rfl)⟩
  have hrun : Session.run 5 .plain "while true { break }" (.start 0) =
      .ok [.bool false] (.start 0) := rfl
  obtain ⟨-, hmoments, hruns⟩ := signals_never_leak (.start 0)
  obtain ⟨hcells, -⟩ := hmoments _ hvisits
  exact ⟨_, _, hvisits, rfl, hcells _ (.inr (.inl ⟨_, rfl⟩)), hrun, hruns _ _ _ _ _ hrun⟩

end Scripting

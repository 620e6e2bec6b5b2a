import Scripting.Evaluation

/-!
# Proofs: taking computations apart

A computation that was put together from parts and gave a result had a part that gave one. The
lemmas on `Eval` also say what happened to the state, and where a failure came from.
-/

namespace Scripting

/-! ## Results without a state -/

theorem bind_eq_ok_iff {ε α β : Type} {x : Except ε α} {f : α → Except ε β} {b : β} :
    x >>= f = .ok b ↔ ∃ a, x = .ok a ∧ f a = .ok b := by
  cases x with
  | error e => simp [bind, Except.bind]
  | ok a => simp [bind, Except.bind]

theorem bind_eq_error_iff {ε α β : Type} {x : Except ε α} {f : α → Except ε β} {e : ε} :
    x >>= f = .error e ↔ x = .error e ∨ ∃ a, x = .ok a ∧ f a = .error e := by
  cases x with
  | error e' => simp [bind, Except.bind]
  | ok a => simp [bind, Except.bind]

/-! ## Results with a state -/

section

variable {ε σ α β : Type} {m : EStateM ε σ α} {f : α → EStateM ε σ β} {s s' : σ} {e : ε}

theorem bind_ok {a : α} (h : m s = .ok a s') : (m >>= f) s = f a s' := by
  simp [bind, EStateM.bind, h]

theorem bind_error (h : m s = .error e s') : (m >>= f) s = .error e s' := by
  simp [bind, EStateM.bind, h]

theorem ok_of_bind {b : β} (h : (m >>= f) s = .ok b s') :
    ∃ a s₁, m s = .ok a s₁ ∧ f a s₁ = .ok b s' := by
  cases hm : m s with
  | ok a s₁ =>
    rw [bind_ok hm] at h
    exact ⟨a, s₁, rfl, h⟩
  | error e s₁ =>
    rw [bind_error hm] at h
    exact absurd h (by simp)

theorem error_of_bind (h : (m >>= f) s = .error e s') :
    m s = .error e s' ∨ ∃ a s₁, m s = .ok a s₁ ∧ f a s₁ = .error e s' := by
  cases hm : m s with
  | ok a s₁ =>
    rw [bind_ok hm] at h
    exact Or.inr ⟨a, s₁, rfl, h⟩
  | error e' s₁ =>
    rw [bind_error hm] at h
    cases h
    exact Or.inl rfl

end

namespace Eval

/-! ## Looking at the store -/

variable {α : Type} {position : Position} {look : Store → Except ScopeFault α} {s : State}

theorem inspect_of_ok {a : α} (h : look s.store = .ok a) : inspect position look s = .ok a s := by
  have hget : (get : Eval State) s = .ok s s := rfl
  unfold inspect
  rw [bind_ok hget, h]
  rfl

theorem inspect_of_error {fault : ScopeFault} (h : look s.store = .error fault) :
    inspect position look s = .error (.error ⟨.scope fault, position⟩) s := by
  have hget : (get : Eval State) s = .ok s s := rfl
  unfold inspect
  rw [bind_ok hget, h]
  rfl

theorem ok_of_inspect {a : α} {s' : State} (h : inspect position look s = .ok a s') :
    s' = s ∧ look s.store = .ok a := by
  cases hlook : look s.store with
  | ok a' =>
    rw [inspect_of_ok hlook] at h
    cases h
    exact ⟨rfl, rfl⟩
  | error fault =>
    rw [inspect_of_error hlook] at h
    cases h

theorem error_of_inspect {e : Stop RuntimeError} {s' : State}
    (h : inspect position look s = .error e s') :
    s' = s ∧ ∃ fault, look s.store = .error fault ∧ e = .error ⟨.scope fault, position⟩ := by
  cases hlook : look s.store with
  | ok a' =>
    rw [inspect_of_ok hlook] at h
    cases h
  | error fault =>
    rw [inspect_of_error hlook] at h
    cases h
    exact ⟨rfl, fault, rfl, rfl⟩

/-! ## Operands -/

variable {part : Eval (List Value)} {next : List Value → Eval (List Value)} {s' : State}
  {e : Stop RuntimeError} {values : List Value}

theorem unlessSignal_of_ok {s₁ : State} (h : part s = .ok values s₁)
    (hsignal : Value.isSignal values = false) : unlessSignal part next s = next values s₁ := by
  unfold unlessSignal
  rw [bind_ok h, hsignal]
  rfl

theorem unlessSignal_of_error (h : part s = .error e s') : unlessSignal part next s = .error e s' :=
  bind_error h

theorem unlessSignal_of_signal (h : part s = .ok values s')
    (hsignal : Value.isSignal values = true) : unlessSignal part next s = .ok values s' := by
  unfold unlessSignal
  rw [bind_ok h, hsignal]
  rfl

theorem ok_of_unlessSignal (h : unlessSignal part next s = .ok values s')
    (hsignal : Value.isSignal values = false) :
    ∃ values₁ s₁, part s = .ok values₁ s₁ ∧ Value.isSignal values₁ = false ∧
      next values₁ s₁ = .ok values s' := by
  obtain ⟨values₁, s₁, hpart, h⟩ := ok_of_bind h
  cases hsignal₁ : Value.isSignal values₁ with
  | true =>
    rw [hsignal₁] at h
    cases h
    exact absurd (hsignal.symm.trans hsignal₁) Bool.false_ne_true
  | false =>
    rw [hsignal₁] at h
    exact ⟨values₁, s₁, hpart, hsignal₁, h⟩

theorem error_of_unlessSignal (h : unlessSignal part next s = .error e s') :
    part s = .error e s' ∨ ∃ values s₁, part s = .ok values s₁ ∧
      Value.isSignal values = false ∧ next values s₁ = .error e s' := by
  rcases error_of_bind h with h | ⟨values, s₁, hpart, h⟩
  · exact Or.inl h
  · cases hsignal : Value.isSignal values with
    | true =>
      rw [hsignal] at h
      cases h
    | false =>
      rw [hsignal] at h
      exact Or.inr ⟨values, s₁, hpart, hsignal, h⟩

theorem withOperand_of_ok {next : Value → Eval (List Value)} {s₁ : State} {v : Value}
    (h : part s = .ok [v] s₁) (hsignal : Value.isSignal [v] = false) :
    withOperand part position next s = next v s₁ := by
  unfold withOperand
  rw [unlessSignal_of_ok h hsignal]
  rfl

theorem withOperand_of_count {next : Value → Eval (List Value)} {s₁ : State}
    (h : part s = .ok values s₁) (hsignal : Value.isSignal values = false)
    (hcount : values.length ≠ 1) :
    withOperand part position next s =
      .error (.error ⟨.valueCount values.length, position⟩) s₁ := by
  unfold withOperand
  rw [unlessSignal_of_ok h hsignal]
  refine bind_error ?_
  unfold single
  split
  · exact absurd rfl hcount
  · rfl

theorem error_of_withOperand {next : Value → Eval (List Value)}
    (h : withOperand part position next s = .error e s') :
    part s = .error e s' ∨
    (∃ count, e = .error ⟨.valueCount count, position⟩) ∨
    ∃ v s₁, part s = .ok [v] s₁ ∧ Value.isSignal [v] = false ∧ next v s₁ = .error e s' := by
  rcases error_of_unlessSignal h with h | ⟨values, s₁, hpart, hsignal, h⟩
  · exact Or.inl h
  · refine Or.inr ?_
    rcases error_of_bind h with h | ⟨v, s₂, hsingle, h⟩
    · unfold single at h
      split at h
      · cases h
      · cases h
        exact Or.inl ⟨_, rfl⟩
    · unfold single at hsingle
      split at hsingle
      · cases hsingle
        exact Or.inr ⟨_, _, hpart, hsignal, h⟩
      · cases hsingle

end Eval

end Scripting

import Scripting.Proofs.Failures
import Scripting.Proofs.Signals

/-!
# Proofs: when `x += e` is `x := x + e`

Both forms evaluate `e` and add its value to that of `x`, but `x += e` looks `x` up after `e` was
evaluated and `x := x + e` before. So they have the same outcome if and only if `e` leaves to `x`
what gives the same sum.
-/

namespace Scripting

open Eval

/-! ## Outcomes -/

/-- The kinds of failures of evaluation. -/
inductive FaultKind where
  | undefinedVariable
  | typeMismatch
  | invalidOperand
  | divisionByZero
  | valueCount
  | assignmentCount
  | notCallable
  | argumentCount
  | capture
  deriving DecidableEq, Repr

/-- The kind of a failure. -/
def RuntimeFault.kind : RuntimeFault → FaultKind
  | scope (.undefined _) => .undefinedVariable
  | scope (.typeMismatch ..) => .typeMismatch
  | operand .divisionByZero => .divisionByZero
  | operand _ => .invalidOperand
  | valueCount _ => .valueCount
  | assignmentCount .. => .assignmentCount
  | notCallable _ => .notCallable
  | argumentCount .. => .argumentCount
  | capture _ => .capture

/-- Two computations succeed with the same values, variables and output, or they stop with failures
of the same kind. -/
def SameOutcome (r r' : EStateM.Result (Stop RuntimeError) State (List Value)) : Prop :=
  match r, r' with
  | .ok values s, .ok values' s' =>
    values = values' ∧ s.store = s'.store ∧ s.output = s'.output
  | .error e _, .error e' _ => e.map (·.fault.kind) = e'.map (·.fault.kind)
  | _, _ => False

theorem sameOutcome_error_iff {fault fault' : RuntimeFault} {p p' : Position} {s s' : State} :
    SameOutcome (.error (.error ⟨fault, p⟩) s) (.error (.error ⟨fault', p'⟩) s') ↔
      fault.kind = fault'.kind :=
  ⟨Stop.error.inj, congrArg Stop.error⟩

/-! ## Sums -/

namespace Value

variable {a b sum : Value} {fault : OperandFault}

/-- A sum has the type of its parts. -/
theorem type_of_add (h : a.add b = .ok sum) : a.sameType sum = true := by
  unfold add at h
  split at h <;> cases h
  all_goals rfl

theorem isSignal_eq_false (h : a.type ≠ .control) : isSignal [a] = false := by
  cases a with
  | control => exact absurd rfl h
  | _ => rfl

theorem kind_of_add (h : a.add b = .error fault) :
    (RuntimeFault.operand fault).kind = .invalidOperand := by
  unfold add at h
  split at h <;> cases h
  rfl

end Value

/-! ## Operands -/

namespace Code

/-- The ways in which code ends that a construct needs a single value of. -/
inductive Operand (level : Nat) (e : Code) (scope : Scope) (s : State) : Prop
  | stops {stop s₁} (hrun : e.run (level + 1) scope s = .error stop s₁)
  | signal {values s₁} (hrun : e.run (level + 1) scope s = .ok values s₁)
    (hsignal : Value.isSignal values = true)
  | several {values s₁} (hrun : e.run (level + 1) scope s = .ok values s₁)
    (hsignal : Value.isSignal values = false) (hcount : values.length ≠ 1)
  | single {w s₁} (h : e.Passes level scope s [w] s₁)

theorem operand_cases (level : Nat) (e : Code) (scope : Scope) (s : State) :
    Operand level e scope s := by
  cases hrun : e.run (level + 1) scope s with
  | error stop s₁ => exact .stops hrun
  | ok values s₁ =>
    cases hsignal : Value.isSignal values with
    | true => exact .signal hrun hsignal
    | false =>
      by_cases hcount : values.length = 1
      · obtain ⟨w, rfl⟩ := List.length_eq_one_iff.1 hcount
        exact .single ⟨hrun, hsignal⟩
      · exact .several hrun hsignal hcount

end Code

variable {s s₁ : State} {scope : Scope} {x : String} {e : Code} {level : Nat}
  {values : List Value} {w old new sum : Value} {p p₁ p₂ p₃ : Position} {fault : OperandFault}

namespace Eval

theorem readName_of_value? (h : s.store.value? scope x = some w) :
    readName scope x p s = .ok w s := by
  obtain ⟨cell, hcell, rfl⟩ := Option.map_eq_some_iff.1 h
  exact inspect_of_ok (Store.value_eq_ok hcell)

theorem readName_of_none (h : s.store.value? scope x = none) :
    readName scope x p s = .error (undefinedAt x p) s := by
  refine inspect_of_error ?_
  unfold Store.value Store.cell
  rw [Option.map_eq_none_iff.1 h]
  rfl

theorem operate_of_ok (h : Except.ok w = old.add new) :
    operate p (old.add new) s = .ok w s := by
  rw [← h]
  rfl

theorem operate_of_error (h : Except.error fault = old.add new) :
    operate p (old.add new) s = .error (.error ⟨.operand fault, p⟩) s := by
  rw [← h]
  rfl

/-- A single checked write is a write. -/
theorem assignAll_singleton (scope : Scope) (p : Position) (x : String) (w : Value) :
    assignAll scope p [(x, w)] = assignName scope p x w := by
  funext s
  have hcheck : s.store.checkAll scope [(x, w)] = s.store.checkSet scope x w := by
    unfold Store.checkAll
    rw [Store.checkWrites_cons]
    show (s.store.checkSet scope x w >>= fun _ => .ok ()) = _
    cases s.store.checkSet scope x w <;> rfl
  cases h : s.store.checkSet scope x w with
  | ok =>
    refine (bind_ok (inspect_of_ok (hcheck.trans h))).trans ?_
    rw [assignName_of_ok h]
    exact bind_ok (assignName_of_ok h)
  | error fault =>
    exact (bind_error (inspect_of_error (hcheck.trans h))).trans
      (bind_error (inspect_of_error h)).symm

end Eval

namespace Code

/-- The code of `x := x + e`. -/
def expanded (x : String) (e : Code) (p₁ p₂ p₃ : Position) : Code :=
  .assign [x] (.binary .add (.name x p₁) e p₂) p₃

end Code

/-! ## The trees of both forms -/

namespace Node

/-- The tree of `x += e`. -/
def shortForm (x : String) (value : Node) (p₀ p : Position) : Node :=
  ⟨.accumulate, "+=", p, [⟨.identifier, x, p₀, []⟩, value]⟩

/-- The tree of `x := x + e`. -/
def longForm (x : String) (value : Node) (p₀ p₁ p₂ p₃ : Position) : Node :=
  ⟨.assign, ":=", p₃, [⟨.identifier, x, p₀, []⟩,
    ⟨.plus, "+", p₂, [⟨.identifier, x, p₁, []⟩, value]⟩]⟩

variable {analysis? : Path → Option Analysis} {inLoop : Bool} {path : Path} {value : Node}
  {p₀ : Position}

theorem compile_shortForm (h : value.compile analysis? inLoop (1 :: path) = .ok e) :
    (shortForm x value p₀ p).compile analysis? inLoop path = .ok (.accumulate x e p) := by
  unfold shortForm compile
  exact bind_eq_ok_iff.2 ⟨e, h, rfl⟩

theorem compile_longForm (h : value.compile analysis? inLoop (1 :: 1 :: path) = .ok e) :
    (longForm x value p₀ p₁ p₂ p₃).compile analysis? inLoop path =
      .ok (Code.expanded x e p₁ p₂ p₃) := by
  have hsum : compile analysis? inLoop (1 :: path)
      ⟨.plus, "+", p₂, [⟨.identifier, x, p₁, []⟩, value]⟩ =
        .ok (.binary .add (.name x p₁) e p₂) := by
    unfold compile
    exact bind_eq_ok_iff.2 ⟨.name x p₁, rfl, bind_eq_ok_iff.2 ⟨e, h, rfl⟩⟩
  unfold longForm compile
  exact bind_eq_ok_iff.2 ⟨[x], rfl, bind_eq_ok_iff.2 ⟨_, hsum, rfl⟩⟩

end Node

namespace Code

/-! ## The short form -/

/-- The sum has the type of what it takes the place of, so it can always be kept. -/
theorem checkSet_of_add (hnew : s.store.value? scope x = some new) (hsum : new.add w = .ok sum) :
    s.store.checkSet scope x sum = .ok () := by
  unfold Store.checkSet
  cases hown : s.store.ownCell? scope x with
  | none => rfl
  | some cell =>
    rw [Store.value?, Store.cell?_of_ownCell? hown] at hnew
    simp only [Store.checkType, Option.some.inj hnew, Value.type_of_add hsum, Bool.or_true, if_true]

theorem accumulate_of_passes (h : e.Passes level scope s [w] s₁) :
    (accumulate x e p).run (level + 1) scope s = (do
      let current ← readName scope x p
      let sum ← operate p (current.add w)
      assignName scope p x sum
      return [sum] : Eval (List Value)) s₁ :=
  withOperand_of_ok h.1 h.2

theorem accumulate_of_none (h : e.Passes level scope s [w] s₁)
    (hnew : s₁.store.value? scope x = none) :
    (accumulate x e p).run (level + 1) scope s = .error (undefinedAt x p) s₁ := by
  rw [accumulate_of_passes h]
  exact bind_error (readName_of_none hnew)

theorem accumulate_of_fault (h : e.Passes level scope s [w] s₁)
    (hnew : s₁.store.value? scope x = some new) (hsum : new.add w = .error fault) :
    (accumulate x e p).run (level + 1) scope s = .error (.error ⟨.operand fault, p⟩) s₁ := by
  rw [accumulate_of_passes h, bind_ok (readName_of_value? hnew)]
  exact bind_error (operate_of_error hsum.symm)

theorem accumulate_of_sum (h : e.Passes level scope s [w] s₁)
    (hnew : s₁.store.value? scope x = some new) (hsum : new.add w = .ok sum) :
    (accumulate x e p).run (level + 1) scope s =
      .ok [sum] { s₁ with store := s₁.store.put scope x sum } := by
  rw [accumulate_of_passes h, bind_ok (readName_of_value? hnew), bind_ok (operate_of_ok hsum.symm)]
  exact bind_ok (assignName_of_ok (checkSet_of_add hnew hsum))

/-! ## The long form -/

theorem expanded_of_none (hold : s.store.value? scope x = none) :
    (expanded x e p₁ p₂ p₃).run (level + 1) scope s = .error (undefinedAt x p₁) s := by
  have hname : (name x p₁).run (level + 1) scope s = .error (undefinedAt x p₁) s :=
    bind_error (readName_of_none hold)
  exact unlessSignal_of_error (unlessSignal_of_error hname)

/-- The right side of the long form, once `x` was read. -/
theorem binary_of_value? (hold : s.store.value? scope x = some old) (hdata : old.type ≠ .control) :
    (binary .add (.name x p₁) e p₂).run (level + 1) scope s =
      withOperand (e.run (level + 1) scope) p₂
        (fun b => do return [← operate p₂ (old.add b)]) s := by
  have hname : (name x p₁).run (level + 1) scope s = .ok [old] s :=
    bind_ok (readName_of_value? hold)
  exact withOperand_of_ok hname (Value.isSignal_eq_false hdata)

theorem expanded_of_fault (hold : s.store.value? scope x = some old)
    (hdata : old.type ≠ .control) (h : e.Passes level scope s [w] s₁)
    (hsum : old.add w = .error fault) :
    (expanded x e p₁ p₂ p₃).run (level + 1) scope s =
      .error (.error ⟨.operand fault, p₂⟩) s₁ := by
  refine unlessSignal_of_error ((binary_of_value? hold hdata).trans ?_)
  rw [withOperand_of_ok h.1 h.2]
  exact bind_error (operate_of_error hsum.symm)

theorem expanded_of_sum (hold : s.store.value? scope x = some old)
    (hdata : old.type ≠ .control) (h : e.Passes level scope s [w] s₁)
    (hsum : old.add w = .ok sum) :
    (expanded x e p₁ p₂ p₃).run (level + 1) scope s = (do
      assignName scope p₃ x sum
      return [sum] : Eval (List Value)) s₁ := by
  have hbinary : (binary .add (.name x p₁) e p₂).run (level + 1) scope s = .ok [sum] s₁ := by
    rw [binary_of_value? hold hdata, withOperand_of_ok h.1 h.2]
    exact bind_ok (operate_of_ok hsum.symm)
  have hvalue : sum.IsData s.store := Value.isData_of_add hsum
  refine (unlessSignal_of_ok hbinary (Value.isSignal_eq_false hvalue.not_control)).trans ?_
  have hmatch : matchCounts [x] [sum] p₃ s₁ = .ok () s₁ := rfl
  rw [bind_ok hmatch]
  show (assignAll scope p₃ [(x, sum)] >>= fun _ => pure [sum]) s₁ = _
  rw [assignAll_singleton]

theorem expanded_of_kept (hold : s.store.value? scope x = some old) (hdata : old.type ≠ .control)
    (h : e.Passes level scope s [w] s₁) (hsum : old.add w = .ok sum)
    (hcheck : s₁.store.checkSet scope x sum = .ok ()) :
    (expanded x e p₁ p₂ p₃).run (level + 1) scope s =
      .ok [sum] { s₁ with store := s₁.store.put scope x sum } := by
  rw [expanded_of_sum hold hdata h hsum]
  exact bind_ok (assignName_of_ok hcheck)

theorem expanded_of_refused {fault : ScopeFault} (hold : s.store.value? scope x = some old)
    (hdata : old.type ≠ .control) (h : e.Passes level scope s [w] s₁) (hsum : old.add w = .ok sum)
    (hcheck : s₁.store.checkSet scope x sum = .error fault) :
    (expanded x e p₁ p₂ p₃).run (level + 1) scope s = .error (.error ⟨.scope fault, p₃⟩) s₁ := by
  rw [expanded_of_sum hold hdata h hsum]
  exact bind_error (bind_error (inspect_of_error hcheck))

end Code

/-! ## Both forms -/

theorem kind_of_checkSet {fault : ScopeFault} (h : s.store.checkSet scope x w = .error fault) :
    (RuntimeFault.scope fault).kind = .typeMismatch := by
  obtain ⟨_, _, _, rfl⟩ := Store.typeMismatch_of_checkSet h
  rfl

/-- Without `x` the short form fails for an undefined variable, which the long form does not after
it looked `x` up. -/
theorem not_sameOutcome_of_none (hold : s.store.value? scope x = some old)
    (hdata : old.type ≠ .control) (h : e.Passes level scope s [w] s₁)
    (hnew : s₁.store.value? scope x = none) :
    ¬ SameOutcome ((Code.accumulate x e p).run (level + 1) scope s)
        ((Code.expanded x e p₁ p₂ p₃).run (level + 1) scope s) := by
  rw [Code.accumulate_of_none h hnew]
  cases hsum : old.add w with
  | error fault =>
    rw [Code.expanded_of_fault hold hdata h hsum, undefinedAt, sameOutcome_error_iff,
      Value.kind_of_add hsum]
    exact nofun
  | ok sum =>
    cases hcheck : s₁.store.checkSet scope x sum with
    | ok =>
      rw [Code.expanded_of_kept hold hdata h hsum hcheck]
      exact id
    | error fault =>
      rw [Code.expanded_of_refused hold hdata h hsum hcheck, undefinedAt, sameOutcome_error_iff,
        kind_of_checkSet hcheck]
      exact nofun

/-- With `x` both forms add to what it held when they looked it up. -/
theorem sameOutcome_of_new (hold : s.store.value? scope x = some old)
    (hdata : old.type ≠ .control) (h : e.Passes level scope s [w] s₁)
    (hnew : s₁.store.value? scope x = some new) :
    SameOutcome ((Code.accumulate x e p).run (level + 1) scope s)
        ((Code.expanded x e p₁ p₂ p₃).run (level + 1) scope s) ↔
      (old.add w).toOption = (new.add w).toOption := by
  cases hshort : new.add w with
  | error fault =>
    rw [Code.accumulate_of_fault h hnew hshort]
    cases hsum : old.add w with
    | error fault' =>
      rw [Code.expanded_of_fault hold hdata h hsum, sameOutcome_error_iff,
        Value.kind_of_add hshort, Value.kind_of_add hsum]
      exact iff_of_true rfl rfl
    | ok sum =>
      refine iff_of_false ?_ nofun
      cases hcheck : s₁.store.checkSet scope x sum with
      | ok =>
        rw [Code.expanded_of_kept hold hdata h hsum hcheck]
        exact id
      | error fault' =>
        rw [Code.expanded_of_refused hold hdata h hsum hcheck, sameOutcome_error_iff,
          Value.kind_of_add hshort, kind_of_checkSet hcheck]
        exact nofun
  | ok sum' =>
    rw [Code.accumulate_of_sum h hnew hshort]
    cases hsum : old.add w with
    | error fault =>
      rw [Code.expanded_of_fault hold hdata h hsum]
      exact iff_of_false id nofun
    | ok sum =>
      have hsums : (Except.ok sum : Except OperandFault Value).toOption =
          (Except.ok sum' : Except OperandFault Value).toOption ↔ sum = sum' :=
        ⟨Option.some.inj, congrArg some⟩
      rw [hsums]
      cases hcheck : s₁.store.checkSet scope x sum with
      | ok =>
        rw [Code.expanded_of_kept hold hdata h hsum hcheck]
        constructor
        · rintro ⟨hvalues, -, -⟩
          exact (List.cons.inj hvalues).1.symm
        · rintro rfl
          exact ⟨rfl, rfl, rfl⟩
      | error fault =>
        rw [Code.expanded_of_refused hold hdata h hsum hcheck]
        refine iff_of_false id ?_
        rintro rfl
        rw [Code.checkSet_of_add hnew hshort] at hcheck
        cases hcheck

/-- How `e` must end for both forms to have the same outcome. If `x` has a value before, it has one
afterwards to which the value of `e` adds the same way. If it has none before, it has none
afterwards, or `e` fails for a variable without a value as well. -/
def SameSum (level : Nat) (x : String) (e : Code) (scope : Scope) (s : State) : Prop :=
  match s.store.value? scope x with
  | some old => ∀ w s₁, e.Passes level scope s [w] s₁ →
    ∃ new, s₁.store.value? scope x = some new ∧ (old.add w).toOption = (new.add w).toOption
  | none => (∃ w s₁, e.Passes level scope s [w] s₁ ∧ s₁.store.value? scope x = none) ∨
    ∃ stop s₁, e.run (level + 1) scope s = .error stop s₁ ∧
      stop.map (·.fault.kind) = .error .undefinedVariable

theorem sameSum_of_some (hold : s.store.value? scope x = some old) :
    SameSum level x e scope s ↔ ∀ w s₁, e.Passes level scope s [w] s₁ →
      ∃ new, s₁.store.value? scope x = some new ∧
        (old.add w).toOption = (new.add w).toOption := by
  unfold SameSum
  rw [hold]

theorem sameSum_of_none (hold : s.store.value? scope x = none) :
    SameSum level x e scope s ↔
      (∃ w s₁, e.Passes level scope s [w] s₁ ∧ s₁.store.value? scope x = none) ∨
      ∃ stop s₁, e.run (level + 1) scope s = .error stop s₁ ∧
        stop.map (·.fault.kind) = .error .undefinedVariable := by
  unfold SameSum
  rw [hold]

theorem sameOutcome_of_some (hold : s.store.value? scope x = some old)
    (hdata : old.type ≠ .control) :
    SameOutcome ((Code.accumulate x e p).run (level + 1) scope s)
        ((Code.expanded x e p₁ p₂ p₃).run (level + 1) scope s) ↔
      SameSum level x e scope s := by
  have hbinary : (Code.binary .add (.name x p₁) e p₂).run (level + 1) scope s = _ :=
    Code.binary_of_value? hold hdata
  rw [sameSum_of_some hold]
  -- Only a single value is added; with anything else both forms end as `e` does.
  cases Code.operand_cases level e scope s with
  | stops hrun =>
    have hshort : (Code.accumulate x e p).run (level + 1) scope s = _ := unlessSignal_of_error hrun
    have hlong : (Code.expanded x e p₁ p₂ p₃).run (level + 1) scope s = _ :=
      unlessSignal_of_error (hbinary.trans (unlessSignal_of_error hrun))
    rw [hshort, hlong]
    refine iff_of_true rfl fun w s₁ h => ?_
    cases h.1.symm.trans hrun
  | signal hrun hsignal =>
    have hshort : (Code.accumulate x e p).run (level + 1) scope s = _ :=
      unlessSignal_of_signal hrun hsignal
    have hlong : (Code.expanded x e p₁ p₂ p₃).run (level + 1) scope s = _ :=
      unlessSignal_of_signal (hbinary.trans (unlessSignal_of_signal hrun hsignal)) hsignal
    rw [hshort, hlong]
    refine iff_of_true ⟨rfl, rfl, rfl⟩ fun w s₁ h => ?_
    cases h.1.symm.trans hrun
    exact absurd (h.2.symm.trans hsignal) Bool.false_ne_true
  | several hrun hsignal hcount =>
    have hshort : (Code.accumulate x e p).run (level + 1) scope s = _ :=
      withOperand_of_count hrun hsignal hcount
    have hlong : (Code.expanded x e p₁ p₂ p₃).run (level + 1) scope s = _ :=
      unlessSignal_of_error (hbinary.trans (withOperand_of_count hrun hsignal hcount))
    rw [hshort, hlong]
    refine iff_of_true rfl fun w s₁ h => ?_
    cases h.1.symm.trans hrun
    exact absurd rfl hcount
  | @single w s₁ h =>
    cases hnew : s₁.store.value? scope x with
    | none =>
      refine iff_of_false (not_sameOutcome_of_none hold hdata h hnew) fun hsame => ?_
      obtain ⟨new, hsome, -⟩ := hsame w s₁ h
      cases hnew.symm.trans hsome
    | some new =>
      refine (sameOutcome_of_new hold hdata h hnew).trans ⟨fun hsum w' s₁' h' => ?_, fun hsame => ?_⟩
      · cases h.1.symm.trans h'.1
        exact ⟨new, hnew, hsum⟩
      · obtain ⟨new', hsome, hsum⟩ := hsame w s₁ h
        cases hnew.symm.trans hsome
        exact hsum

/-- The long form looks `x` up first and fails. -/
theorem sameOutcome_of_none (hold : s.store.value? scope x = none) :
    SameOutcome ((Code.accumulate x e p).run (level + 1) scope s)
        ((Code.expanded x e p₁ p₂ p₃).run (level + 1) scope s) ↔
      SameSum level x e scope s := by
  rw [Code.expanded_of_none hold, sameSum_of_none hold]
  cases Code.operand_cases level e scope s with
  | @stops stop s₁ hrun =>
    have hshort : (Code.accumulate x e p).run (level + 1) scope s = _ := unlessSignal_of_error hrun
    rw [hshort]
    refine ⟨fun hkind => Or.inr ⟨stop, s₁, hrun, hkind⟩, ?_⟩
    rintro (⟨w, s₁', h, -⟩ | ⟨stop', s₁', hrun', hkind⟩)
    · cases h.1.symm.trans hrun
    · cases hrun.symm.trans hrun'
      exact hkind
  | signal hrun hsignal =>
    have hshort : (Code.accumulate x e p).run (level + 1) scope s = _ :=
      unlessSignal_of_signal hrun hsignal
    rw [hshort]
    refine iff_of_false id ?_
    rintro (⟨w, s₁', h, -⟩ | ⟨stop', s₁', hrun', -⟩)
    · cases h.1.symm.trans hrun
      exact absurd (h.2.symm.trans hsignal) Bool.false_ne_true
    · cases hrun.symm.trans hrun'
  | several hrun hsignal hcount =>
    have hshort : (Code.accumulate x e p).run (level + 1) scope s = _ :=
      withOperand_of_count hrun hsignal hcount
    rw [hshort, undefinedAt, sameOutcome_error_iff]
    refine iff_of_false nofun ?_
    rintro (⟨w, s₁', h, -⟩ | ⟨stop', s₁', hrun', -⟩)
    · cases h.1.symm.trans hrun
      exact absurd rfl hcount
    · cases hrun.symm.trans hrun'
  | @single w s₁ h =>
    cases hnew : s₁.store.value? scope x with
    | none =>
      rw [Code.accumulate_of_none h hnew]
      exact iff_of_true rfl (Or.inl ⟨w, s₁, h, hnew⟩)
    | some new =>
      refine iff_of_false ?_ ?_
      · cases hsum : new.add w with
        | error fault =>
          rw [Code.accumulate_of_fault h hnew hsum, undefinedAt, sameOutcome_error_iff,
            Value.kind_of_add hsum]
          exact nofun
        | ok sum =>
          rw [Code.accumulate_of_sum h hnew hsum]
          exact id
      · rintro (⟨w', s₁', h', hnone⟩ | ⟨stop', s₁', hrun', -⟩)
        · cases h.1.symm.trans h'.1
          cases hnew.symm.trans hnone
        · cases h.1.symm.trans hrun'

/-- A state without signals has the value of `x` as data, which is where it goes into a sum. -/
theorem sameOutcome_iff (hs : s.store.NoSignals) :
    SameOutcome ((Code.accumulate x e p).run (level + 1) scope s)
        ((Code.expanded x e p₁ p₂ p₃).run (level + 1) scope s) ↔
      SameSum level x e scope s := by
  cases hold : s.store.value? scope x with
  | none => exact sameOutcome_of_none hold
  | some old =>
    obtain ⟨cell, -, rfl⟩ := Option.map_eq_some_iff.1 hold
    exact sameOutcome_of_some hold (hs cell)

/-- In every state that a session reaches, between its runs or within one, `x += e` has the outcome
of `x := x + e` if and only if `e` leaves to `x` what gives the same sum. Where the tree of `e` has
the same code in both trees, what is compared is the code of the trees. -/
theorem accumulate_same_iff {a : Session} (ha : a.Reachable) {s : State}
    (hs : s = a.state ∨ ∃ m, a.Visits m ∧ m.At s) (level : Nat) (scope : Scope) (x : String)
    (e : Code) (p p₁ p₂ p₃ : Position) :
    (SameOutcome ((Code.accumulate x e p).run (level + 1) scope s)
        ((Code.expanded x e p₁ p₂ p₃).run (level + 1) scope s) ↔
      SameSum level x e scope s) ∧
    ∀ analysis? inLoop path value p₀,
      (value.compile analysis? inLoop (1 :: path) = .ok e →
        (Node.shortForm x value p₀ p).compile analysis? inLoop path = .ok (.accumulate x e p)) ∧
      (value.compile analysis? inLoop (1 :: 1 :: path) = .ok e →
        (Node.longForm x value p₀ p₁ p₂ p₃).compile analysis? inLoop path =
          .ok (Code.expanded x e p₁ p₂ p₃)) := by
  refine ⟨sameOutcome_iff ?_, fun _ _ _ _ _ => ⟨Node.compile_shortForm, Node.compile_longForm⟩⟩
  rcases hs with rfl | ⟨m, hm, hs⟩
  · exact ha.sound.noSignals
  · exact ((hm.fine ha).leads.at hs).1.noSignals

/-- A literal leaves `x` as it is, so both forms have the same outcome. -/
theorem accumulate_same_iff_literal :
    ∃ a : Session, a.Reachable ∧ a.state.store.value? .global "x" = some (.int 1) ∧
      SameOutcome
        ((Code.accumulate "x" (.literal (.int 10)) ⟨2, 3⟩).run 1 .global a.state)
        ((Code.expanded "x" (.literal (.int 10)) ⟨2, 6⟩ ⟨2, 8⟩ ⟨2, 3⟩).run 1 .global a.state) := by
  have hrun : ∃ a, Session.run 1 .plain "x := 1" (.start 0) = .ok [.int 1] a ∧
      a.state.store.value? .global "x" = some (.int 1) :=
    ⟨_, rfl, rfl⟩
  obtain ⟨a, hrun, hx⟩ := hrun
  have ha : a.Reachable := .run (.start 0) hrun
  refine ⟨a, ha, hx, (accumulate_same_iff ha (.inl rfl) ..).1.2 ?_⟩
  rw [sameSum_of_some hx]
  rintro w s₁ ⟨hrun, -⟩
  cases hrun
  exact ⟨_, hx, rfl⟩

/-- `x := 10` changes what `x += (x := 10)` adds to, but not what `x := x + (x := 10)` does. -/
theorem accumulate_not_expanded :
    (∃ a, Session.run 1 .plain "x := 1\nx += (x := 10)" (.start 0) = .ok [.int 20] a) ∧
    ∃ a, Session.run 1 .plain "x := 1\nx := x + (x := 10)" (.start 0) = .ok [.int 11] a :=
  ⟨⟨_, rfl⟩, ⟨_, rfl⟩⟩

end Scripting

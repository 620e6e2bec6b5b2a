import Scripting.Code

/-!
# Proofs: the parts of code

The parts of a construct are evaluated in its own scope. The body of a function is no part of the
code that yields the function, since it runs in the scope of a call.
-/

namespace Scripting

namespace Code

/-- The names that a construct itself looks up, apart from those that it also assigns. -/
def reads : Code → List String
  | .name x _ => [x]
  | .primitive .print => ["value"]
  | _ => []

/-- The names that a construct itself assigns. -/
def targets : Code → List String
  | .assign targets _ _ => targets
  | .accumulate target _ _ => [target]
  | .default targets _ _ => targets
  | _ => []

/-- The names whose cells a construct itself takes along, if it yields a function. -/
def taken : Code → List String
  | .function _ _ _ free passed _ _ => free ++ passed
  | _ => []

/-- The names that a construct itself looks up or assigns, those of its parts left out. -/
def uses (code : Code) : List String :=
  code.reads ++ code.targets

/-- Can a break or continue leave the code? Those in the body of a loop end there. -/
def escapes : Code → Bool
  | .break | .continue => true
  | .sequence first rest | .both first rest => first.escapes || rest.escapes
  | .assign _ value _ | .accumulate _ value _ | .default _ value _ => value.escapes
  | .unary _ operand _ | .return operand => operand.escapes
  | .binary _ left right _ | .logical _ left right _ => left.escapes || right.escapes
  | .branch condition yes no _ => condition.escapes || (yes.escapes || no.escapes)
  | .loop condition _ _ => condition.escapes
  | .apply callee arguments _ => callee.escapes || arguments.escapes
  | _ => false

/-- The parts of a construct. -/
def parts : Code → List Code
  | .sequence first rest | .both first rest => [first, rest]
  | .assign _ value _ | .accumulate _ value _ | .default _ value _ => [value]
  | .unary _ operand _ | .return operand => [operand]
  | .binary _ left right _ | .logical _ left right _ => [left, right]
  | .branch condition yes no _ => [condition, yes, no]
  | .loop condition body _ => [condition, body]
  | .apply callee arguments _ => [callee, arguments]
  | _ => []

/-- The part of a construct that is evaluated first, whatever happens. -/
def first? : Code → Option Code
  | .sequence first _ | .both first _ => some first
  | .assign _ value _ | .accumulate _ value _ => some value
  | .unary _ operand _ | .return operand => some operand
  | .binary _ left _ _ | .logical _ left _ _ => some left
  | .branch condition _ _ _ => some condition
  | .apply callee _ _ => some callee
  | _ => none

/-- Does the code, and do all its parts, satisfy `P`? -/
def Every (P : Code → Prop) (code : Code) : Prop :=
  P code ∧ match code with
    | .sequence first rest | .both first rest => first.Every P ∧ rest.Every P
    | .assign _ value _ | .accumulate _ value _ | .default _ value _ => value.Every P
    | .unary _ operand _ | .return operand => operand.Every P
    | .binary _ left right _ | .logical _ left right _ => left.Every P ∧ right.Every P
    | .branch condition yes no _ => condition.Every P ∧ yes.Every P ∧ no.Every P
    | .loop condition body _ => condition.Every P ∧ body.Every P
    | .apply callee arguments _ => callee.Every P ∧ arguments.Every P
    | _ => True

variable {P Q : Code → Prop}

theorem Every.self {code : Code} (h : code.Every P) : P code := by
  unfold Every at h
  exact h.1

theorem Every.part {code part : Code} (h : code.Every P) (hp : part ∈ code.parts) :
    part.Every P := by
  cases code with
  | literal | name | nothing | «break» | «continue» | function | primitive =>
    exact absurd hp List.not_mem_nil
  | sequence | both | binary | logical | loop | apply =>
    simp only [parts, List.mem_cons, List.not_mem_nil, or_false] at hp
    rcases hp with rfl | rfl
    · exact h.2.1
    · exact h.2.2
  | assign | accumulate | default | unary | «return» => exact List.mem_singleton.1 hp ▸ h.2
  | branch =>
    simp only [parts, List.mem_cons, List.not_mem_nil, or_false] at hp
    rcases hp with rfl | rfl | rfl
    · exact h.2.1
    · exact h.2.2.1
    · exact h.2.2.2

theorem Every.mono (hPQ : ∀ code, P code → Q code) {code : Code} (h : code.Every P) :
    code.Every Q := by
  induction code with
  | literal | name | nothing | «break» | «continue» | function | primitive =>
    exact ⟨hPQ _ h.1, trivial⟩
  | sequence _ _ ih₁ ih₂ | both _ _ ih₁ ih₂ | binary _ _ _ _ ih₁ ih₂ | logical _ _ _ _ ih₁ ih₂
  | loop _ _ _ ih₁ ih₂ | apply _ _ _ ih₁ ih₂ =>
    exact ⟨hPQ _ h.1, ih₁ h.2.1, ih₂ h.2.2⟩
  | assign _ _ _ ih | accumulate _ _ _ ih | default _ _ _ ih | unary _ _ _ ih | «return» _ ih =>
    exact ⟨hPQ _ h.1, ih h.2⟩
  | branch _ _ _ _ ih₁ ih₂ ih₃ => exact ⟨hPQ _ h.1, ih₁ h.2.1, ih₂ h.2.2.1, ih₃ h.2.2.2⟩

theorem mem_parts_of_first? {code part : Code} (h : code.first? = some part) :
    part ∈ code.parts := by
  cases code <;> cases h <;> exact List.mem_cons_self

/-! ## Chains -/

/-- What holds of nothing, and of two that are joined if it holds of both, holds of a chain if it
holds of its members. -/
theorem of_chain {chain : List Code → Code} {join : Code → Code → Code} {codes : List Code}
    (hnil : chain [] = .nothing) (hone : ∀ code, chain [code] = code)
    (hcons : ∀ first second rest,
      chain (first :: second :: rest) = join first (chain (second :: rest)))
    (hnothing : P .nothing) (hjoin : ∀ first rest, P first → P rest → P (join first rest))
    (h : ∀ code ∈ codes, P code) : P (chain codes) := by
  induction codes with
  | nil =>
    rw [hnil]
    exact hnothing
  | cons first rest ih =>
    cases rest with
    | nil =>
      rw [hone]
      exact h first List.mem_cons_self
    | cons second rest =>
      rw [hcons]
      exact hjoin _ _ (h first List.mem_cons_self) (ih fun code hc =>
        h code (List.mem_cons_of_mem _ hc))

theorem of_statements {codes : List Code} (hnothing : P .nothing)
    (hsequence : ∀ first rest, P first → P rest → P (.sequence first rest))
    (h : ∀ code ∈ codes, P code) : P (statements codes) :=
  of_chain rfl (fun _ => rfl) (fun _ _ _ => rfl) hnothing hsequence h

theorem of_tuple {codes : List Code} (hnothing : P .nothing)
    (hboth : ∀ first rest, P first → P rest → P (.both first rest))
    (h : ∀ code ∈ codes, P code) : P (tuple codes) :=
  of_chain rfl (fun _ => rfl) (fun _ _ _ => rfl) hnothing hboth h

theorem of_branches (position : Position) (hnothing : P .nothing)
    (hbranch : ∀ condition yes no, P condition → P yes → P no →
      P (.branch condition yes no position)) :
    ∀ {codes : List Code}, (∀ code ∈ codes, P code) → P (branches position codes)
  | [], _ => hnothing
  | [last], h => h last List.mem_cons_self
  | condition :: block :: _, h =>
    hbranch _ _ _ (h condition List.mem_cons_self)
      (h block (List.mem_cons_of_mem _ List.mem_cons_self))
      (of_branches position hnothing hbranch fun code hc =>
        h code (List.mem_cons_of_mem _ (List.mem_cons_of_mem _ hc)))

end Code

end Scripting

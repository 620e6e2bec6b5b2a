import Mathlib.Data.List.Basic
import Scripting.Proofs.Sessions

/-!
# Proofs: what a function literal yields

Evaluating a function literal makes a function that has, for each name that the literal takes along,
the cell that the scope finds for it at that moment. The literal fails if the scope does not find
all of its free names.
-/

namespace Scripting

/-- A function literal of executable code. -/
structure FunctionLiteral where
  parameters : List String
  channels : List String
  locals : List String
  /-- The names that it needs from outside. -/
  free : List String
  /-- The names that it takes along for the literals inside. -/
  passed : List String
  body : Code
  position : Position

namespace Store

variable {s : Store} {scope : Scope} {names : List String} {before : NameMap CellId} {x : String}

/-- The cells that a scope finds for names, together with those gathered before. -/
def gather (s : Store) (scope : Scope) (names : List String) (before : NameMap CellId) :
    NameMap CellId :=
  names.foldl (fun captured name => match s.cell? scope name with
    | some cell => captured.insert name cell
    | none => captured) before

theorem get?_gather (s : Store) (scope : Scope) (names : List String) (before : NameMap CellId)
    (x : String) : (s.gather scope names before).get? x =
      if x ∈ names ∧ (s.cell? scope x).isSome then s.cell? scope x else before.get? x := by
  unfold gather
  induction names generalizing before with
  | nil => simp
  | cons name names ih =>
    rw [List.foldl_cons, ih]
    by_cases hx : x ∈ names ∧ (s.cell? scope x).isSome
    · rw [if_pos hx, if_pos ⟨List.mem_cons_of_mem _ hx.1, hx.2⟩]
    · rw [if_neg hx]
      by_cases hname : x = name
      · subst hname
        cases hcell : s.cell? scope x with
        | none => simp
        | some cell => simp
      · have hmem : ¬ (x ∈ name :: names ∧ (s.cell? scope x).isSome) := by
          rintro ⟨hmem, hsome⟩
          rcases List.mem_cons.1 hmem with h | h
          · exact hname h
          · exact hx ⟨h, hsome⟩
        rw [if_neg hmem]
        cases s.cell? scope name with
        | none => rfl
        | some cell => exact NameMap.get?_insert_of_ne _ _ (Ne.symm hname)

theorem gather_congr {scope' : Scope} (h : ∀ x ∈ names, s.cell? scope' x = s.cell? scope x) :
    s.gather scope' names before = s.gather scope names before := by
  refine List.foldl_ext _ _ before fun captured x hx => ?_
  rw [h x hx]

theorem get?_gather_empty (s : Store) (scope : Scope) (names : List String) (x : String) :
    (s.gather scope names ∅).get? x = if x ∈ names then s.cell? scope x else none := by
  rw [get?_gather]
  by_cases hx : x ∈ names
  · cases hcell : s.cell? scope x <;> simp [hx]
  · simp [hx]

end Store

namespace Eval

variable {s s' : State} {scope : Scope} {position : Position} {names : List String}
  {before captured : NameMap CellId}

theorem captureAll_of_found (h : ∀ x ∈ names, (s.store.cell? scope x).isSome) :
    captureAll scope position before names s = .ok (s.store.gather scope names before) s := by
  induction names generalizing before with
  | nil => rfl
  | cons name names ih =>
    obtain ⟨cell, hcell⟩ := Option.isSome_iff_exists.1 (h name List.mem_cons_self)
    have hget : (get : Eval State) s = .ok s s := rfl
    have hgather : s.store.gather scope (name :: names) before =
        s.store.gather scope names (before.insert name cell) := by
      unfold Store.gather
      rw [List.foldl_cons, hcell]
    unfold captureAll
    rw [bind_ok hget, hcell, hgather]
    exact ih fun x hx => h x (List.mem_cons_of_mem _ hx)

/-- A name without a cell stops the taking along, and nothing has changed. -/
theorem captureAll_of_missing {x : String} (hx : x ∈ names) (hnone : s.store.cell? scope x = none) :
    ∃ e, captureAll scope position before names s = .error e s := by
  induction names generalizing before with
  | nil => exact absurd hx List.not_mem_nil
  | cons name names ih =>
    have hget : (get : Eval State) s = .ok s s := rfl
    unfold captureAll
    rw [bind_ok hget]
    cases hcell : s.store.cell? scope name with
    | none => exact ⟨_, rfl⟩
    | some cell =>
      rcases List.mem_cons.1 hx with rfl | hx
      · cases hcell.symm.trans hnone
      · exact ih hx

theorem found_of_captureAll (h : captureAll scope position before names s = .ok captured s') :
    ∀ x ∈ names, (s.store.cell? scope x).isSome := by
  induction names generalizing before with
  | nil => exact fun x hx => absurd hx List.not_mem_nil
  | cons name names ih =>
    have hget : (get : Eval State) s = .ok s s := rfl
    unfold captureAll at h
    rw [bind_ok hget] at h
    intro x hx
    cases hcell : s.store.cell? scope name with
    | none =>
      rw [hcell] at h
      cases h
    | some cell =>
      rw [hcell] at h
      rcases List.mem_cons.1 hx with rfl | hx
      · rw [hcell]
        rfl
      · exact ih h x hx

end Eval

open Eval

namespace FunctionLiteral

variable {l : FunctionLiteral} {level : Nat} {scope : Scope} {s s' : State} {values : List Value}
  {x : String} {Q : Node → Prop}

/-- The code that yields functions of the literal. -/
def code (l : FunctionLiteral) : Code :=
  .function l.parameters l.channels l.locals l.free l.passed l.body l.position

/-- The function that the literal yields in a scope. -/
def closure (l : FunctionLiteral) (id : Nat) (s : Store) (scope : Scope) : Function where
  id := id
  parameters := l.parameters
  channels := l.channels
  locals := l.locals
  body := l.body
  captured := s.gather scope (l.free ++ l.passed) ∅

/-- The names that the literal takes along. -/
def taken (l : FunctionLiteral) : List String :=
  l.free ++ l.passed

/-- Does the literal bind the name itself? -/
def Binds (l : FunctionLiteral) (x : String) : Prop :=
  x ∈ l.parameters ∨ x ∈ l.channels ∨ x ∈ l.locals

theorem get?_captured (l : FunctionLiteral) (id : Nat) (s : Store) (scope : Scope) (x : String) :
    (l.closure id s scope).captured.get? x = if x ∈ l.taken then s.cell? scope x else none :=
  s.get?_gather_empty scope l.taken x

theorem run_of_found (h : ∀ x ∈ l.free, (s.store.cell? scope x).isSome) :
    l.code.run (level + 1) scope s =
      .ok [.function (l.closure s.nextFunction s.store scope)]
        { s with nextFunction := s.nextFunction + 1 } := by
  have hfound : captureFound scope (s.store.gather scope l.free ∅) l.passed s =
      .ok (s.store.gather scope (l.free ++ l.passed) ∅) s := by
    unfold Store.gather
    rw [List.foldl_append]
    rfl
  refine (bind_ok (captureAll_of_found h)).trans ?_
  refine (bind_ok hfound).trans ?_
  rfl

/-- A literal that yields something yields one function, and it found all that it needs. -/
theorem of_run (h : l.code.run (level + 1) scope s = .ok values s') :
    (∀ x ∈ l.free, (s.store.cell? scope x).isSome) ∧
      values = [.function (l.closure s.nextFunction s.store scope)] ∧
      s' = { s with nextFunction := s.nextFunction + 1 } := by
  obtain ⟨captured, s₁, hcapture, -⟩ := ok_of_bind h
  have hfound := found_of_captureAll hcapture
  rw [run_of_found hfound] at h
  cases h
  exact ⟨hfound, rfl, rfl⟩

/-- A literal that fails changes nothing. -/
theorem state_of_error {e : Stop RuntimeError} (h : l.code.run (level + 1) scope s = .error e s') :
    s' = s := by
  by_cases hfound : ∀ x ∈ l.free, (s.store.cell? scope x).isSome
  · rw [run_of_found hfound] at h
    cases h
  · push Not at hfound
    obtain ⟨x, hx, hnone⟩ := hfound
    obtain ⟨e', hmissing⟩ : ∃ e, captureAll scope l.position ∅ l.free s = .error e s :=
      captureAll_of_missing hx (Option.not_isSome_iff_eq_none.1 hnone)
    cases (bind_error hmissing).symm.trans h
    rfl

/-- A function that a placed literal yields is made from an analysis of the program. -/
theorem madeFrom_of_run (hplaced : l.code.PlacedIn Q) {f : Function}
    (h : l.code.run (level + 1) scope s = .ok [.function f] s') :
    ∃ a : Analysis, a.GovernsIn Q f.body ∧ f.MadeFrom a ∧ ∀ x, x ∈ l.taken ↔ x ∈ a.captures := by
  obtain ⟨hfound, hf, -⟩ := of_run h
  obtain ⟨a, hgoverns, hparameters, hchannels, hlocals, hfree, hpassed⟩ := hplaced
  cases hf
  have htaken : ∀ x, x ∈ l.taken ↔ x ∈ a.captures := by
    intro x
    unfold taken
    rw [hfree, hpassed, List.mem_append, Names.mem_toList, Names.mem_toList, Names.mem_sdiff]
    constructor
    · rintro (hx | ⟨hx, -⟩)
      · exact Names.mem_union.2 (Or.inl hx)
      · exact hx
    · intro hx
      by_cases hmem : x ∈ a.free
      · exact Or.inl hmem
      · exact Or.inr ⟨hx, hmem⟩
  refine ⟨a, hgoverns, ⟨hgoverns.governs, hparameters, hchannels, hlocals, fun x hx => ?_,
    fun {x} hx => ?_⟩, htaken⟩
  · have hmem : x ∈ l.free := hfree ▸ Names.mem_toList.2 hx
    have htake : x ∈ l.taken := List.mem_append_left _ hmem
    rw [get?_captured, if_pos htake]
    exact hfound x hmem
  · rw [get?_captured] at hx
    split at hx
    · next hmem => exact (htaken x).1 hmem
    · simp at hx

theorem madeFrom_closure (hplaced : l.code.PlacedIn Q)
    (hfound : ∀ x ∈ l.free, (s.store.cell? scope x).isSome) :
    ∃ a : Analysis, a.GovernsIn Q l.body ∧
      (l.closure s.nextFunction s.store scope).MadeFrom a ∧ ∀ x, x ∈ l.taken ↔ x ∈ a.captures := by
  have hrun : l.code.run (0 + 1) scope s =
      .ok [.function (l.closure s.nextFunction s.store scope)]
        { s with nextFunction := s.nextFunction + 1 } := run_of_found hfound
  exact madeFrom_of_run hplaced hrun

end FunctionLiteral

end Scripting

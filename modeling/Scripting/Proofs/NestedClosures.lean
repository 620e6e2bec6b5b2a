import Scripting.Proofs.CallFrames
import Scripting.Proofs.Seeding

/-!
# Proofs: closures nested in each other

A function takes along what the literals in its body need and it does not bind itself. Its calls
start with those cells, and a literal evaluated in the scope of a call finds them there before it
looks at the frames of the callers. So a cell goes down a chain of nested literals to the innermost
function, whoever calls the functions on the way.
-/

namespace Scripting

open Eval

/-! ## The cells of a call -/

section

variable {s s₀ : State} {f : Function} {a : Analysis} {arguments : List Value}
  {outer : List FrameId} {position : Position} {scope : Scope} {x : String} {cell : CellId}

theorem Function.ownCell?_of_enter (hs : s.store.Distinct)
    (hcaptured : ∀ {x c}, f.captured.get? x = some c → s.store.Binds x c) (hmade : f.MadeFrom a)
    (henter : enter f arguments outer position s = .ok scope s₀)
    (hx : f.captured.get? x = some cell) : s₀.store.ownCell? scope x = some cell := by
  obtain ⟨store, hprepared, hset⟩ := prepared_of_enter hs hcaptured hmade henter
  obtain ⟨-, he, -⟩ := Store.written_of_setAll hprepared.distinct hprepared.frame hset
  exact he.kept (hprepared.taken hx)

/-- Until a call ends, its scope finds the cells that the function took along. -/
theorem Function.cell?_of_within {level : Nat} {caller : Scope} {m : Moment} {s' : State}
    (hcall : Moment.Fine ⟨level + 1, .call f arguments caller position, s⟩) (hmade : f.MadeFrom a)
    (hcount : arguments.length = f.arity)
    (henter : enter f arguments caller.chain position s = .ok scope s₀)
    (hx : f.captured.get? x = some cell) (hm : Moment.Within ⟨level, .code f.body scope, s₀⟩ m)
    (hs' : m.At s') : s'.store.cell? scope x = some cell := by
  obtain ⟨hbody, hscope, hframe, -⟩ := Moment.of_enter hcall hcount henter
  have hown : s₀.store.ownCell? scope x = some cell :=
    ownCell?_of_enter hcall.sound.toDistinct hcall.ready.1.captured hmade henter hx
  refine Store.cell?_of_ownCell? ?_
  unfold Store.ownCell? at hown ⊢
  rw [Moment.bindings_of_within hbody hscope hm hs' hframe]
  exact hown

end

/-! ## Chains of literals -/

namespace FunctionLiteral

/-- The function comes from evaluating the literal, which has the analysis `a`. -/
structure Makes (l : FunctionLiteral) (a : Analysis) (f : Function) : Prop where
  madeFrom : f.MadeFrom a
  taken : ∀ x, x ∈ l.taken ↔ x ∈ a.captures
  binds : ∀ x, a.binds x = true → l.Binds x

variable {l : FunctionLiteral} {f : Function} {level : Nat} {scope : Scope} {s s' : State}

theorem makes_of_run (hplaced : l.code.Placed)
    (h : l.code.run (level + 1) scope s = .ok [.function f] s') : ∃ a, l.Makes a f := by
  obtain ⟨a, -, hmade, htaken⟩ := madeFrom_of_run (Code.Placed.placedIn hplaced) h
  refine ⟨a, hmade, htaken, fun x hx => ?_⟩
  obtain ⟨-, hf, -⟩ := of_run h
  cases hf
  have hparameters : l.parameters = a.parameters := hmade.parameters
  have hchannels : l.channels = a.channels := hmade.channels
  have hlocals : l.locals = a.locals.toList := hmade.locals
  unfold Binds
  rw [hparameters, hchannels, hlocals, Names.mem_toList]
  simp only [Analysis.binds, Bool.or_eq_true, List.contains_iff_mem, decide_eq_true_eq] at hx
  rcases hx with (hx | hx) | hx
  · exact Or.inl hx
  · exact Or.inr (Or.inl hx)
  · exact Or.inr (Or.inr hx)

end FunctionLiteral

/-- Some call of `f`, in some run of some session, evaluates the literal in its own scope and gets
`g`. -/
def Function.Yields (f : Function) (l : FunctionLiteral) (g : Function) : Prop :=
  ∃ (a : Session) (level : Nat) (arguments : List Value) (caller : Scope) (position : Position)
    (s : State) (scope : Scope) (s₀ : State) (level' : Nat) (s₁ s₂ : State), a.Reachable ∧
    a.Visits ⟨level + 1, .call f arguments caller position, s⟩ ∧
    arguments.length = f.arity ∧ enter f arguments caller.chain position s = .ok scope s₀ ∧
    Moment.Within ⟨level, .code f.body scope, s₀⟩ ⟨level', .code l.code scope, s₁⟩ ∧
    l.code.run (level' + 1) scope s₁ = .ok [.function g] s₂

/-- The literals of the list, each evaluated by a call of what the one before yielded, lead from one
function to another. -/
inductive Function.Leads : Function → List FunctionLiteral → Function → Prop
  | here {f} : Leads f [] f
  | next {f l g ls h} (hyields : f.Yields l g) (hrest : Leads g ls h) : Leads f (l :: ls) h

namespace FunctionLiteral

variable {l l' : FunctionLiteral} {f g : Function} {a : Analysis}

/-- What a literal inside needs is taken along, unless it is bound on the way; and what was taken
along the function inside gets. -/
theorem Makes.of_yields (h : l.Makes a f) (hyields : f.Yields l' g) :
    (∃ a', l'.Makes a' g) ∧ ∀ x ∈ l'.taken,
      (¬ l.Binds x → x ∈ l.taken) ∧
        ∀ cell, f.captured.get? x = some cell → g.captured.get? x = some cell := by
  obtain ⟨b, level, arguments, caller, position, s, scope, s₀, level', s₁, s₂, hb, hcall, hcount,
    henter, hwithin, hrun⟩ := hyields
  have hfine := hcall.fine hb
  obtain ⟨hbody, hscope, hframe, -⟩ := Moment.of_enter hfine hcount henter
  have hinner := (hwithin.leads hbody).fine
  refine ⟨makes_of_run hinner.ready.placed.self hrun, fun x hx => ⟨fun hbinds => ?_, ?_⟩⟩
  · -- What is evaluated in the scope of the call belongs to the body.
    obtain ⟨m, ha, hnoted⟩ := h.madeFrom.governs.noted
    have hinside := hwithin.inside hbody (Nat.le_refl _)
      (P := fun code => ∀ x ∈ code.taken, x ∈ m.nested)
      (Or.inl ⟨rfl, hnoted.mono fun _ hcode => hcode.taken⟩)
    rcases hinside with ⟨-, hevery⟩ | hle
    · have hnested : x ∈ a.nested := by
        rw [ha]
        exact hevery.self x hx
      refine (h.taken x).2 (Names.mem_union.2 (Or.inr (Names.mem_filter.2 ⟨hnested, ?_⟩)))
      rw [Bool.not_eq_true']
      exact Bool.eq_false_iff.2 fun hbound => hbinds (h.binds x hbound)
    · exact absurd hframe (Nat.not_lt.2 hle)
  · intro cell hcell
    have hkept : s₁.store.cell? scope x = some cell :=
      Function.cell?_of_within hfine h.madeFrom hcount henter hcell hwithin (Or.inl rfl)
    obtain ⟨-, hg, -⟩ := of_run hrun
    cases hg
    rw [get?_captured, if_pos hx]
    exact hkept

/-- The run lemma of chains: what the last literal needs and no other binds goes down the chain. -/
theorem Makes.of_leads {ls : List FunctionLiteral} {x : String} (hleads : f.Leads ls g)
    (h : l.Makes a f) (hfree : ∀ last ∈ (l :: ls).getLast?, x ∈ last.taken)
    (hbinds : ∀ l' ∈ (l :: ls).dropLast, ¬ l'.Binds x) :
    x ∈ l.taken ∧ ∀ cell, f.captured.get? x = some cell → g.captured.get? x = some cell := by
  induction hleads generalizing l a with
  | here => exact ⟨hfree l rfl, fun _ hcell => hcell⟩
  | @next f l' g ls h' hyields _ ih =>
    obtain ⟨⟨a', hmakes⟩, hstep⟩ := h.of_yields hyields
    obtain ⟨htaken, hcells⟩ := ih hmakes hfree fun l₂ hl₂ => hbinds l₂ (List.mem_cons_of_mem _ hl₂)
    obtain ⟨hup, hdown⟩ := hstep x htaken
    exact ⟨hup (hbinds l List.mem_cons_self), fun cell hcell => hcells cell (hdown cell hcell)⟩

end FunctionLiteral

/-- A function made at the end of a chain of nested literals, of which only the last needs a name
and none before binds it, takes along the cell that the name had where the first literal was
evaluated. -/
theorem nested_closure_cell {a : Session} (ha : a.Reachable) {level : Nat} {l : FunctionLiteral}
    {scope : Scope} {s s' : State} {f g : Function} {ls : List FunctionLiteral} {x : String}
    {cell : CellId} (hvisits : a.Visits ⟨level, .code l.code scope, s⟩)
    (hf : l.code.run (level + 1) scope s = .ok [.function f] s')
    (hcell : s.store.cell? scope x = some cell) (hleads : f.Leads ls g)
    (hfree : ∀ last ∈ (l :: ls).getLast?, x ∈ last.free)
    (hbinds : ∀ l' ∈ (l :: ls).dropLast, ¬ l'.Binds x) : g.captured.get? x = some cell := by
  obtain ⟨analysis, hmakes⟩ :=
    FunctionLiteral.makes_of_run (hvisits.fine ha).ready.placed.self hf
  obtain ⟨htaken, hcells⟩ := hmakes.of_leads hleads
    (fun last hlast => List.mem_append_left _ (hfree last hlast)) hbinds
  refine hcells cell ?_
  obtain ⟨-, hclosure, -⟩ := FunctionLiteral.of_run hf
  cases hclosure
  rw [FunctionLiteral.get?_captured, if_pos htaken, hcell]

/-- A function in a function, of which only the inner one uses `x`: when the call of the outer one
makes it, it holds the cell of the top level. -/
theorem nested_closure_cell_two :
    ∃ (l l' : FunctionLiteral) (level : Nat) (s s' : State) (f g : Function),
      (Session.start 0).Visits ⟨level, .code l.code .global, s⟩ ∧
      l.code.run (level + 1) .global s = .ok [.function f] s' ∧
      s.store.cell? .global "x" = some 2 ∧ f.Leads [l'] g ∧ g.captured.get? "x" = some 2 := by
  have hchain : ∃ (l l' : FunctionLiteral) (s s' : State) (f g : Function),
      (Session.start 0).Visits ⟨3, .code l.code .global, s⟩ ∧
      l.code.run 4 .global s = .ok [.function f] s' ∧ s.store.cell? .global "x" = some 2 ∧
      f.Yields l' g ∧ l.parameters = [] ∧ l.channels = [] ∧ l.locals = [] ∧ l'.free = ["x"] :=
    ⟨⟨_, _, _, _, _, _, _⟩, ⟨_, _, _, _, _, _, _⟩, _, _, _, _,
      ⟨.plain, "x := 1\nf := func() \x7b return func() \x7b return x \x7d \x7d\nf()", _, _, 3, rfl,
        .tail (.tail (.tail .refl (.sequence ⟨rfl, rfl⟩)) (.first rfl)) (.first rfl)⟩,
      rfl, rfl,
      ⟨_, _, _, _, _, _, _, _, _, _, _, .start 0,
        ⟨.plain, "x := 1\nf := func() \x7b return func() \x7b return x \x7d \x7d\nf()", _, _, 3,
          rfl, .tail (.tail (.tail .refl (.sequence ⟨rfl, rfl⟩)) (.sequence ⟨rfl, rfl⟩))
            (.apply ⟨rfl, rfl⟩ ⟨rfl, rfl⟩)⟩,
        rfl, rfl, .tail .refl (.first rfl), rfl⟩,
      rfl, rfl, rfl, rfl⟩
  obtain ⟨l, l', s, s', f, g, hvisits, hf, hcell, hyields, hparameters, hchannels, hlocals,
    hfree⟩ := hchain
  have hleads : f.Leads [l'] g := .next hyields .here
  refine ⟨l, l', 3, s, s', f, g, hvisits, hf, hcell, hleads, ?_⟩
  refine nested_closure_cell (.start 0) hvisits hf hcell hleads ?_ ?_
  · rintro last ⟨rfl⟩
    exact hfree ▸ List.mem_cons_self
  · intro l₁ hl₁ hbinds
    cases List.mem_singleton.1 hl₁
    rw [FunctionLiteral.Binds, hparameters, hchannels, hlocals] at hbinds
    rcases hbinds with h | h | h <;> exact List.not_mem_nil h

end Scripting

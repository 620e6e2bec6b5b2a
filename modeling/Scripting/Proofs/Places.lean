import Scripting.Proofs.SharedCells
import Scripting.Proofs.Sources

/-!
# Proofs: where the constructs of a session stand in its sources

Every construct that a session evaluates is part of the code of the top level of some source, or of
the body of some function in it, or it belongs to the library. So a place that it names is a place in
that source, and the analysis of the function that contains it is one of those that the source has.
-/

namespace Scripting

open Node

/-! ## Bodies of a program -/

namespace Program

/-- A body of the program and its path, with the analysis of the function that it belongs to and of
those around. -/
inductive HasBody (p : Program) : PlacedAnalysis → Path → Node → Prop
  | top : p.HasBody p.outermost [] p.root
  | function {entry body s} (hentry : entry ∈ p.functions)
    (hat : FunctionAt p.root entry.path entry.analysis body s) :
    p.HasBody entry.toPlacedAnalysis (2 :: entry.path) body

variable {p : Program} {root body : Node} {fn : PlacedAnalysis} {path : Path} {a : Analysis}

theorem HasBody.at? (h : p.HasBody fn path body) : p.root.at? path = some body := by
  cases h with
  | top => rfl
  | function _ hat =>
    obtain ⟨_, _, _, _, _, hnode, -⟩ := hat.node
    exact at?_child hnode rfl

/-- The analysis of a function is that of its body. -/
theorem HasBody.survey (h : p.HasBody fn path body) (hp : ofNode root = .ok p) :
    ∃ s, body.survey path = .ok s ∧
      fn.analysis = .ofMentions fn.analysis.parameters fn.analysis.channels s.mentions := by
  cases h with
  | top =>
    obtain ⟨s, hs, hprogram⟩ := bind_eq_ok_iff.1 hp
    cases hprogram
    exact ⟨s, hs, rfl⟩
  | function _ hat => exact ⟨_, hat.survey, hat.analysis⟩

theorem HasBody.mem (h : p.HasBody fn path body) :
    fn ∈ p.outermost :: p.functions.map (·.toPlacedAnalysis) := by
  cases h with
  | top => exact List.mem_cons_self
  | function hentry => exact List.mem_cons_of_mem _ (List.mem_map_of_mem hentry)

/-- The analysis found at a path is that of the function there, among those around it. -/
theorem entry_of_analysis? (hp : ofNode root = .ok p) (ha : p.analysis? path = some a) :
    ∃ entry ∈ p.functions, entry.path = path ∧ entry.analysis = a ∧
      ∃ body s, FunctionAt p.root path a body s := by
  obtain ⟨hroot, body, s, hat⟩ := functionAt_of_analysis? hp ha
  obtain ⟨entry, hentry, hanalysis⟩ := Option.map_eq_some_iff.1 ha
  have hpath : entry.path = path := by simpa using List.find?_some hentry
  exact ⟨entry, List.mem_of_find?_eq_some hentry, hpath, hanalysis, body, s, hroot ▸ hat⟩

end Program

/-! ## Constructs -/

namespace Code

/-- The construct is part of the code of a body in a program whose tree satisfies `Q`. -/
def PartIn (Q : Node → Prop) (code : Code) : Prop :=
  ∃ root p fn path body, Q root ∧ Program.ofNode root = .ok p ∧ p.HasBody fn path body ∧
    Origin p.analysis? path body code

/-- The body of a function literal is made of parts in such programs. -/
def InnerIn (Q : Node → Prop) : Code → Prop
  | .function _ _ _ _ _ body _ => body.Every (PartIn Q)
  | _ => True

variable {Q : Node → Prop} {code : Code}

/-- The body of a function literal stands in the program of the literal. -/
theorem PartIn.inner (h : code.PartIn Q) : code.InnerIn Q := by
  obtain ⟨root, p, fn, path, body, hQ, hp, hbody, horigin⟩ := h
  cases horigin with
  | link h =>
    cases code with
    | function => exact h.elim
    | _ => trivial
  | node hencloses hkind h =>
    cases h with
    | function ha hchild =>
      obtain ⟨child, hc, hcode⟩ := hchild
      obtain ⟨entry, hentry, rfl, rfl, inner, s, hat⟩ := Program.entry_of_analysis? hp ha
      obtain ⟨_, _, _, _, _, hnode, -⟩ := hat.node
      cases (at?_of_encloses hencloses hbody.at?).symm.trans hnode
      cases hc
      exact (origin_of_compile _ hcode).mono fun part horigin =>
        ⟨root, p, _, _, _, hQ, hp, .function hentry hat, horigin⟩
    | statements | branches => exact absurd (by decide) hkind
    | tuple htuple => rcases htuple with rfl | rfl <;> exact absurd (by decide) hkind
    | _ => trivial

end Code

/-- All functions are of the library or have bodies made of parts in programs whose trees satisfy
`Q`, and so do those that are still to be made. -/
def Policy.places (Q : Node → Prop) : Policy where
  allows f := f.IsNative ∨ f.body.Every (Code.PartIn Q)
  holds m := m.task.Every (Code.InnerIn Q)
  may _ _ := True
  refl _ := trivial
  trans _ _ := trivial
  step {a b} h hstep := by
    refine hstep.every (fun f values caller position htask => ?_) h.holds
    have haccepts := h.accepts
    rw [htask] at haccepts
    rcases haccepts.1 with (rfl | rfl) | hbody
    · exact ⟨trivial, trivial⟩
    · exact ⟨trivial, trivial⟩
    · exact hbody.mono fun _ hpart => hpart.inner
  made {level l scope s} h _ := by
    have hinner : l.code.InnerIn Q := Code.Every.self h.holds
    exact Or.inr hinner
  write _ _ := trivial
  frame _ := trivial

namespace Session

variable {Q : Node → Prop} {a b : Session} {display : Display} {source : String} {code : Code}

theorem partIn_of_prepare (hsource : Reads Q source)
    (h : prepare display source a = .ok code b) : code.Every (Code.PartIn Q) := by
  obtain ⟨root, p, hparses, hp, hcode⟩ := compile_of_prepare h
  cases Program.root_of_ofNode hp
  exact (origin_of_compile _ hcode).mono fun part horigin =>
    ⟨p.root, p, _, _, _, hsource _ hparses, hp, .top, horigin⟩

end Session

theorem Policy.places_suits (Q : Node → Prop) : (places Q).Suits Q :=
  ⟨fun _ hnative => Or.inl hnative, fun _ hsource hprepare =>
    (Session.partIn_of_prepare hsource hprepare).mono fun _ hpart => hpart.inner⟩

/-! ## Moments -/

theorem Moment.SameCall.every {P : Code → Prop} {a b : Moment} (h : a.SameCall b)
    (hP : a.task.Every P) : b.task.Every P := by
  induction h with
  | refl => exact hP
  | @tail a b _ hstep ih =>
    rcases hstep with h | h
    · rcases h.starts.inner with ⟨f, values, caller, position, hcall⟩ | ⟨-, hevery, -⟩
      · exact absurd h.evaluates (by rw [Evaluates, hcall]; exact id)
      · exact hevery P ih
    · cases h
      exact ih.2

/-- A construct that needs a variable that its scope does not find stands in a source. -/
theorem Session.partIn_of_missing {Q : Node → Prop} {a b : Session} {display : Display}
    {source : String} {code part : Code} {level : Nat} {c : Moment} {scope : Scope} {s : State}
    {x : String} (ha : a.ReachedBy Q) (hsource : Reads Q source)
    (hprepare : prepare display source a = .ok code b)
    (hc : Moment.Within ⟨level, .code code .global, b.state⟩ c) (htask : c.task = .code part scope)
    (hs : c.At s) (hx : x ∈ part.uses ++ part.taken) (hnone : s.store.cell? scope x = none) :
    part.PartIn Q := by
  have hsuits := Policy.places_suits Q
  have hgood := hsuits.good_of_prepare (hsuits.clean ha) hsource hprepare level
  rcases hc.sameCall_or (Moment.evaluates_of_code htask) with
    hsame | ⟨call, body, hcall, henters, hsame⟩
  · have hevery : c.task.Every (Code.PartIn Q) :=
      hsame.every (partIn_of_prepare hsource hprepare)
    rw [htask] at hevery
    exact Code.Every.self hevery
  · have hcalled := (Policy.places Q).within hgood hcall
    cases henters with
    | body hcount henter =>
      rcases hcalled.accepts.1 with hnative | hparts
      · -- The body of a function of the library finds all that it needs.
        have hprovides : c.task.Every _ := hsame.every hnative.provides
        have hinner := hsame.scope_eq
        rw [htask] at hprovides hinner
        obtain ⟨hbody, hscope, hframe, hall⟩ := Moment.of_enter hcalled.fine hcount henter
        obtain ⟨cell, -, hcell⟩ := Moment.cell?_of_within hbody hscope hframe hsame.within hs
          (hall x (Code.Every.self hprovides x hx))
        cases hinner
        cases hnone.symm.trans hcell
      · have hevery : c.task.Every (Code.PartIn Q) := hsame.every hparts
        rw [htask] at hevery
        exact Code.Every.self hevery

end Scripting

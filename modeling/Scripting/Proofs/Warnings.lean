import Scripting.Proofs.Histories
import Scripting.Proofs.Places

/-!
# Proofs: a variable that is missing was warned about

Each run warns about the names of its source that nothing in the source binds and that the top level
does not know yet. What the top level knows is found forever, in whatever scope. So a run fails for
want of a variable only where that warning was given, be it by an earlier run, or inside a function
that binds the name, though not on every way to the place.
-/

namespace Scripting

open Node

/-! ## Lookups in a program -/

/-- The program looks the variable up for a function and fails with the error if it is not found.
What a function literal needs is looked up for the function itself, where the literal stands. -/
inductive Program.Seeks (p : Program) (x : String) : RuntimeError → PlacedAnalysis → Prop
  | name {fn path body path' position children} (hbody : p.HasBody fn path body)
    (hencloses : Encloses path body path' ⟨.identifier, x, position, children⟩) :
    p.Seeks x ⟨.scope (.undefined x), position⟩ fn
  | accumulate {fn path body path' literal position children} (hbody : p.HasBody fn path body)
    (hencloses : Encloses path body path' ⟨.accumulate, literal, position, children⟩)
    (hx : targets .accumulate position children = .ok [x]) :
    p.Seeks x ⟨.scope (.undefined x), position⟩ fn
  | function {entry literal position children} (hentry : entry ∈ p.functions)
    (hat : p.root.at? entry.path = some ⟨.funcWord, literal, position, children⟩)
    (hx : x ∈ entry.analysis.free) : p.Seeks x ⟨.capture x, position⟩ entry.toPlacedAnalysis

namespace Analysis

variable {a : Analysis} {m : Mentions} {x : String}

theorem binds_or_free_of_identifier (ha : a = .ofMentions a.parameters a.channels m)
    (hx : x ∈ m.identifiers) : a.binds x = true ∨ x ∈ a.free := by
  cases hbinds : a.binds x with
  | true => exact Or.inl rfl
  | false =>
    have hmentioned : x ∈ a.identifiers := by
      rw [ha]
      exact hx
    refine Or.inr (Names.mem_union.2 (Or.inr (Names.mem_filter.2 ⟨hmentioned, ?_⟩)))
    rw [hbinds]
    rfl

theorem binds_or_free_of_assigned (ha : a = .ofMentions a.parameters a.channels m)
    (hx : x ∈ m.assigned) : a.binds x = true ∨ x ∈ a.free := by
  by_cases hextern : x ∈ a.externs
  · exact Or.inr (Names.mem_union.2 (Or.inl hextern))
  · have hlocal : x ∈ a.locals := by
      rw [ha] at hextern ⊢
      exact Names.mem_sdiff.2 ⟨hx, hextern⟩
    exact Or.inl (by simp [binds, hlocal])

end Analysis

namespace Program

variable {p : Program} {root : Node} {x : String} {e : RuntimeError} {fn : PlacedAnalysis}
  {known : List String}

/-- The analysis has noted what is looked up. -/
theorem Seeks.binds_or_free (h : p.Seeks x e fn) (hp : ofNode root = .ok p) :
    fn.analysis.binds x = true ∨ x ∈ fn.analysis.free := by
  cases h with
  | name hbody hencloses =>
    obtain ⟨s, hs, ha⟩ := hbody.survey hp
    obtain ⟨s', hs', hle⟩ := survey_of_encloses hencloses hs
    exact Analysis.binds_or_free_of_identifier ha (hle.identifiers x (identifiers_of_survey hs'))
  | accumulate hbody hencloses hx =>
    obtain ⟨s, hs, ha⟩ := hbody.survey hp
    obtain ⟨s', hs', hle⟩ := survey_of_encloses hencloses hs
    have hassigned := assigned_of_targets hs' (by simp) hx x List.mem_cons_self
    exact Analysis.binds_or_free_of_assigned ha (hle.assigned x hassigned)
  | function _ _ hx => exact Or.inr hx

theorem Seeks.mem (h : p.Seeks x e fn) :
    fn ∈ p.outermost :: p.functions.map (·.toPlacedAnalysis) := by
  cases h with
  | name hbody | accumulate hbody => exact hbody.mem
  | function hentry => exact List.mem_cons_of_mem _ (List.mem_map_of_mem hentry)

/-- A name that is looked up where nothing binds it is in the warnings, unless it is known. -/
theorem Seeks.mem_warnings (h : p.Seeks x e fn) (hp : ofNode root = .ok p)
    (hbound : fn.bound x = false) (hknown : x ∉ known) : x ∈ p.warnings known := by
  have hfree : x ∈ fn.analysis.free := by
    refine (h.binds_or_free hp).resolve_left fun hbinds => ?_
    rw [PlacedAnalysis.bound, List.any_cons, hbinds] at hbound
    cases hbound
  have hmissing : x ∈ fn.missing :=
    List.mem_filter.2 ⟨hfree, by rw [hbound]; rfl⟩
  refine List.mem_flatMap.2 ⟨fn, h.mem, List.mem_filter.2 ⟨hmissing, ?_⟩⟩
  simpa using hknown

end Program

/-- A construct that stands in a source looks up what its program does there. -/
theorem Code.Seeks.program {Q : Node → Prop} {x : String} {code : Code} {e : RuntimeError}
    (h : code.Seeks x e) (hpart : code.PartIn Q) :
    ∃ root p fn, Q root ∧ Program.ofNode root = .ok p ∧ p.Seeks x e fn := by
  obtain ⟨root, p, fn, path, body, hQ, hp, hbody, horigin⟩ := hpart
  cases horigin with
  | link hlinks => cases h <;> exact hlinks.elim
  | node hencloses hkind hcode =>
    cases hcode with
    | name =>
      cases h
      exact ⟨root, p, fn, hQ, hp, .name hbody hencloses⟩
    | accumulate hnames =>
      cases h
      exact ⟨root, p, fn, hQ, hp, .accumulate hbody hencloses hnames⟩
    | function ha =>
      obtain ⟨entry, hentry, rfl, rfl, -⟩ := Program.entry_of_analysis? hp ha
      cases h with
      | function hx =>
        exact ⟨root, p, _, hQ, hp, .function hentry (at?_of_encloses hencloses hbody.at?)
          (Names.mem_toList.1 hx)⟩
    | statements | branches => exact absurd (by decide) hkind
    | tuple htuple => rcases htuple with rfl | rfl <;> exact absurd (by decide) hkind
    | _ => cases h

/-! ## Warnings of a run -/

namespace Session

theorem cell?_of_globalNames {a : Session} {x : String} (h : x ∈ a.globalNames) :
    ∃ cell, a.state.store.cell? .global x = some cell := by
  rw [Store.cell?_eq_ownCell? rfl]
  exact Option.isSome_iff_exists.1 (NameMap.isSome_get?_of_mem h)

/-- The computation emits no warnings. -/
def Silent {α : Type} (m : SessionM α) : Prop :=
  ∀ a, (ending (m a)).warnings = a.warnings

section

variable {α β : Type} {m : SessionM α} {f : α → SessionM β}

theorem Silent.bind (hm : Silent m) (hf : ∀ x, Silent (f x)) : Silent (m >>= f) := by
  intro a
  have ha := hm a
  cases h : m a with
  | ok x b =>
    rw [h] at ha
    rw [bind_ok h]
    exact (hf x b).trans ha
  | error e b =>
    rw [h] at ha
    rw [bind_error h]
    exact ha

theorem silent_pure (x : α) : Silent (pure x) := fun _ => rfl

theorem silent_orStop {ε : Type} (kind : ε → Error) (result : Except ε α) :
    Silent (orStop kind result) := by
  cases result <;> exact fun _ => rfl

theorem silent_evaluating (work : Eval α) : Silent (evaluating work) := by
  intro a
  unfold evaluating
  cases work a.state <;> rfl

theorem silent_printIf (shown : Bool) (text : String) : Silent (printIf shown text) := by
  cases shown <;> exact fun _ => rfl

end

/-- A run whose source can be analysed emits the warnings of the program, however it ends. -/
theorem warnings_of_run {a : Session} {source : String} {root : Node} {p : Program}
    (hparses : Parses source root) (hp : Program.ofNode root = .ok p) (fuel : Nat)
    (display : Display) :
    (ending (run fuel display source a)).warnings =
      a.warnings ++ p.warnings a.globalNames := by
  -- The warnings come after the tree is shown, and nothing after that emits any.
  have hrest : Silent (do
      printIf display.analyses p.reports
      let code ← orStop .compile p.compile
      return Eval.returned (← evaluating (code.run fuel .global))) :=
    (silent_printIf _ _).bind fun _ => (silent_orStop _ _).bind fun _ =>
      (silent_evaluating _).bind fun _ => silent_pure _
  rw [run_eq, prepare, bind_assoc, bind_ok (parsed_of_parses hparses a), bind_assoc,
    bind_ok (printIf_eq _ _ _), hp]
  simp only [bind_assoc]
  exact hrest _

end Session

namespace Run

/-- The names that the run warned about. -/
def emitted (r : Run) : List String :=
  r.after.warnings.drop r.before.warnings.length

/-- The source of the run looks the variable up for a function. -/
def Seeks (r : Run) (x : String) (e : RuntimeError) (fn : PlacedAnalysis) : Prop :=
  ∃ root p, Session.Parses r.source root ∧ Program.ofNode root = .ok p ∧ p.Seeks x e fn

variable {r : Run} {x : String} {e : RuntimeError} {fn : PlacedAnalysis}

theorem Seeks.mem_emitted (h : r.Seeks x e fn) (hr : r.Happened) (hbound : fn.bound x = false)
    (hknown : x ∉ r.before.globalNames) : x ∈ r.emitted := by
  obtain ⟨root, p, hparses, hp, hseeks⟩ := h
  obtain ⟨fuel, display, hafter⟩ := hr
  rw [emitted, hafter, Session.warnings_of_run hparses hp, List.drop_left]
  exact hseeks.mem_warnings hp hbound hknown

end Run

/-- When a run fails because a variable is undefined or cannot be captured, then the place that the
error names looks that variable up in the source of this run or of one before; and wherever a source
up to now looks the variable up for a function, its run warned about the variable, or the function
binds it or one of those around does. -/
theorem unbound_names_warned {runs : List Run} {a b : Session} {fuel : Nat} {display : Display}
    {source : String} {e : RuntimeError} {x : String} (ha : Session.After runs a)
    (hrun : Session.run fuel display source a = .error (.error (.runtime e)) b)
    (hx : e.fault = .scope (.undefined x) ∨ e.fault = .capture x) :
    (∃ r ∈ runs ++ [⟨source, a, b⟩], ∃ fn, r.Seeks x e fn) ∧
    ∀ r ∈ runs ++ [⟨source, a, b⟩], ∀ e' fn, r.Seeks x e' fn →
      x ∈ r.emitted ∨ fn.bound x = true := by
  have hwanted : e.fault.wanted = some x := by
    rcases hx with hx | hx <;> rw [hx] <;> rfl
  have hreads : ∀ r ∈ runs ++ [⟨source, a, b⟩], Session.Reads
      (fun root => ∃ r ∈ runs ++ [⟨source, a, b⟩], Session.Parses r.source root) r.source :=
    fun r hr root hparses => ⟨r, hr, hparses⟩
  obtain ⟨code, b', level, c, part, scope, hprepare, hc, htask, hat, hraises⟩ :=
    Session.raised_of_run ha.reachable hrun
  obtain ⟨hseeks, hnone⟩ := hraises.wanted x hwanted
  refine ⟨?_, fun r hr e' fn hsought => ?_⟩
  · have hreached := ha.reachedBy fun r hr => hreads r (List.mem_append_left _ hr)
    have hsource := hreads ⟨source, a, b⟩ (List.mem_append_right _ List.mem_cons_self)
    have hpart := Session.partIn_of_missing hreached hsource hprepare hc htask hat hseeks.mem hnone
    obtain ⟨root, p, fn, ⟨r, hr, hparses⟩, hp, hsought⟩ := hseeks.program hpart
    exact ⟨r, hr, fn, root, p, hparses, hp, hsought⟩
  · cases hbound : fn.bound x with
    | true => exact Or.inr rfl
    | false =>
      -- Had the name been known at the time of the run, the scope would find it now.
      obtain ⟨hhappened, hlater⟩ := (ha.of_error hrun).happened r hr
      refine Or.inl (hsought.mem_emitted hhappened hbound fun hknown => ?_)
      obtain ⟨cell, hcell⟩ := Session.cell?_of_globalNames hknown
      have hfine : Moment.Fine ⟨level, .code code .global, b'.state⟩ :=
        Session.fine_of_prepare ha.reachable.sound hprepare
      have hrooted := hc.rooted hfine (Scope.global_rootedIn hfine.sound)
      obtain ⟨-, he⟩ := (hc.leads hfine).fine.leads.at hat
      have hfound := (hrooted.extends he).cell?_isSome (hlater.global_cell? hcell)
      rw [htask] at hfound
      exact Option.not_isSome_iff_eq_none.2 hnone hfound

/-- The first run defines a function with a literal inside that needs `y`, and the second calls it. -/
theorem unbound_names_warned_nested :
    ∃ (r : Run) (b : Session) (e : RuntimeError),
      r.source = "g := func() \x7b return func() \x7b return y \x7d \x7d" ∧
      Session.After [r] r.after ∧
      Session.run 5 .plain "g()" r.after = .error (.error (.runtime e)) b ∧ e.fault = .capture "y" ∧
      ∃ r' ∈ [r] ++ [⟨"g()", r.after, b⟩], ∃ fn, r'.Seeks "y" e fn ∧
        ("y" ∈ r'.emitted ∨ fn.bound "y" = true) := by
  have hfirst := (Session.After.start 0).next 5 .plain
    "g := func() \x7b return func() \x7b return y \x7d \x7d"
  have hrun : ∃ b e, Session.run 5 .plain "g()" (ending (Session.run 5 .plain
      "g := func() \x7b return func() \x7b return y \x7d \x7d" (.start 0))) =
        .error (.error (.runtime e)) b ∧ e.fault = .capture "y" := ⟨_, _, rfl, rfl⟩
  obtain ⟨b, e, hrun, he⟩ := hrun
  obtain ⟨⟨r, hr, fn, hseeks⟩, hwarned⟩ := unbound_names_warned hfirst hrun (.inr he)
  exact ⟨_, b, e, rfl, hfirst, hrun, he, r, hr, fn, hseeks, hwarned r hr e fn hseeks⟩

end Scripting

import Scripting.Proofs.AlikeRuns
import Scripting.Proofs.JoinedTrees

/-!
# Proofs: sources one after the other

Two sources can be run as one, the second on a new line behind the first. If the first goes through,
that comes to the same as running one after the other in the same session: the statements are the
same, their code is the same up to places, and evaluation goes on from the state that the first
source leaves.
-/

namespace Scripting

open Eval

namespace Code

theorem statements_cons (first : Code) {rest : List Code} (h : rest ≠ []) :
    statements (first :: rest) = sequence first (statements rest) := by
  cases rest with
  | nil => exact absurd rfl h
  | cons => rfl

/-- When statements have gone through, those behind them are evaluated. -/
theorem run_statements_append {codes' : List Code} (hsome : codes' ≠ []) {fuel : Nat}
    {scope : Scope} {values : List Value} {s' : State} (hsignal : Value.isSignal values = false)
    {codes : List Code} : ∀ {s : State}, (statements codes).run fuel scope s = .ok values s' →
      (statements (codes ++ codes')).run fuel scope s = (statements codes').run fuel scope s' := by
  cases fuel with
  | zero => exact nofun
  | succ fuel =>
    induction codes with
    | nil =>
      intro s h
      cases h
      rfl
    | cons first rest ih =>
      intro s h
      cases rest with
      | nil =>
        rw [List.singleton_append, statements_cons first hsome]
        exact unlessSignal_of_ok h hsignal
      | cons second rest =>
        obtain ⟨values₁, s₁, hfirst, hsignal₁, hrest⟩ := ok_of_unlessSignal h hsignal
        rw [List.cons_append, List.cons_append, statements_cons first (List.cons_ne_nil _ _),
          ← List.cons_append]
        exact (unlessSignal_of_ok hfirst hsignal₁).trans (ih hrest)

end Code

/-! ## What runs come to -/

/-- The error without its place, if it is one of evaluation. -/
def Error.erased : Error → Error
  | .runtime e => .runtime e.erased
  | e => e

namespace Session

/-- The values or the failure of a run, and the state that it leaves. -/
structure Outcome where
  result : Except (Stop Error) (List Value)
  state : State

namespace Outcome

/-- The outcome if `before` had been printed before. -/
def behind (before : String) (o : Outcome) : Outcome :=
  { o with state := { o.state with output := before ++ o.state.output } }

/-- What a source comes to, by what evaluating its code comes to. -/
def ofResult : EStateM.Result (Stop RuntimeError) State (List Value) → Outcome
  | .ok values s => ⟨.ok (returned values), s⟩
  | .error e s => ⟨.error (e.map .runtime), s⟩

theorem behind_behind (before before' : String) (o : Outcome) :
    (o.behind before').behind before = o.behind (before ++ before') := by
  simp [behind, String.append_assoc]

theorem ofResult_resultErased (before : String)
    (r : EStateM.Result (Stop RuntimeError) State (List Value)) :
    ofResult (resultErased before (List.map Value.erased) r) =
      (ofResult (resultErased "" (List.map Value.erased) r)).behind before := by
  cases r <;> simp [ofResult, resultErased, behind, State.erased]

end Outcome

end Session

/-- What is shown of a source before it is evaluated. -/
def Display.shown (display : Display) (root : Node) (p : Program) : String :=
  (if display.tree then root.sexpr ++ "\n" else "") ++ if display.analyses then p.reports else ""

namespace Session

/-- The source is accepted, and these are its tree, its analysed program and its code. -/
structure Prepared (source : String) (root : Node) (p : Program) (code : Code) : Prop where
  parses : Parses source root
  analysed : Program.ofNode root = .ok p
  compiled : p.compile = .ok code

/-- What a run comes to, without places. -/
def outcome : EStateM.Result (Stop Error) Session (List Value) → Outcome
  | .ok values b => ⟨.ok (values.map Value.erased), b.state.erased ""⟩
  | .error e b => ⟨.error (e.map Error.erased), b.state.erased ""⟩

/-- What evaluating code at the top level comes to, without places, if nothing had been printed. -/
def comesTo (fuel : Nat) (code : Code) (s : State) : Outcome :=
  .ofResult (resultErased "" (List.map Value.erased)
    (code.run fuel .global { s with output := "" }))

/-- Evaluation of the source ends with a return at the top level. -/
def EndsByReturn (fuel : Nat) (display : Display) (source : String) (a : Session) : Prop :=
  ∃ code b results s, prepare display source a = .ok code b ∧
    code.run fuel .global b.state = .ok [.control (.returning results)] s

variable {source : String} {root : Node} {p : Program} {code : Code} {a b : Session}

/-- Before it evaluates, a run only shows what is to be shown of the source. -/
theorem Prepared.prepare_eq (h : Prepared source root p code) (display : Display) (a : Session) :
    ∃ b, prepare display source a = .ok code b ∧
      b.state = { a.state with output := a.state.output ++ display.shown root p } := by
  refine ⟨⟨{ a.state with output := a.state.output ++ display.shown root p },
    a.warnings ++ p.warnings a.globalNames⟩, ?_, rfl⟩
  unfold prepare
  refine (bind_ok (parsed_of_parses h.parses a)).trans ((bind_ok (printIf_eq _ _ _)).trans ?_)
  refine (bind_ok rfl).trans ?_
  rw [h.analysed]
  refine (bind_ok rfl).trans ((bind_ok rfl).trans ?_)
  refine (bind_ok (printIf_eq _ _ _)).trans ?_
  rw [h.compiled]
  unfold Display.shown
  rw [← String.append_assoc]
  rfl

/-- A run evaluates from the state that it starts in, up to what was printed. -/
theorem Prepared.prepare_alike (h : Prepared source root p code) (display : Display) (a : Session) :
    ∃ b, prepare display source a = .ok code b ∧ b.state.erased "" =
      State.erased (a.state.output ++ display.shown root p) { a.state with output := "" } := by
  obtain ⟨b, hprepare, hstate⟩ := h.prepare_eq display a
  refine ⟨b, hprepare, ?_⟩
  rw [hstate]
  simp [State.erased]

theorem outcome_of_prepared (h : Prepared source root p code) (fuel : Nat) (display : Display)
    (a : Session) : outcome (run fuel display source a) =
      (comesTo fuel code a.state).behind (a.state.output ++ display.shown root p) := by
  obtain ⟨b, hprepare, halike⟩ := h.prepare_alike display a
  have hrun : outcome (run fuel display source a) = .ofResult
      (resultErased "" (List.map Value.erased) (code.run fuel .global b.state)) := by
    rw [run_eq, bind_ok hprepare]
    cases heval : code.run fuel .global b.state with
    | ok values s =>
      have hevaluating : evaluating (code.run fuel .global) b =
      .ok values { b with state := s } := by
        simp [evaluating, heval]
      rw [bind_ok hevaluating]
      show Outcome.mk (.ok ((returned values).map Value.erased)) _ = _
      rw [← Value.returned_erased]
      rfl
    | error e s =>
      have hevaluating : evaluating (code.run fuel .global) b =
          .error (e.map .runtime) { b with state := s } := by
        simp [evaluating, heval]
      rw [bind_error hevaluating]
      cases e <;> rfl
  rw [hrun, Code.run_alike rfl halike]
  exact Outcome.ofResult_resultErased _ _

/-- A run that succeeds without a return at the top level ends with no signal. -/
theorem goes_through (ha : a.Reachable) {fuel : Nat} {display : Display} {values : List Value}
    (hrun : run fuel display source a = .ok values b)
    (hreturn : ¬ EndsByReturn fuel display source a) :
    ∃ code c results, prepare display source a = .ok code c ∧
      code.run fuel .global c.state = .ok results b.state ∧ Value.isSignal results = false := by
  obtain ⟨e, c, -, h⟩ | ⟨code, c, hprepare, h⟩ := run_cases fuel display source a
  · cases hrun.symm.trans h
  cases heval : code.run fuel .global c.state with
  | error e s =>
    rw [heval] at h
    cases hrun.symm.trans h
  | ok results s =>
    rw [heval] at h
    cases hrun.symm.trans h
    refine ⟨code, c, results, hprepare, heval, ?_⟩
    obtain ⟨hc, hready, hescapes⟩ := ready_of_prepare ha.sound hprepare
    obtain ⟨-, -, hyielded⟩ := (Code.codeSafe_run fuel code .global c.state hc hready).of_ok heval
    cases hyielded with
    | data hdata =>
      unfold Value.isSignal
      split
      · exact (hdata _ List.mem_cons_self).elim
      · rfl
    | returning => exact absurd ⟨code, c, _, _, hprepare, heval⟩ hreturn
    | breaking hloose | continuing hloose =>
      exact absurd (hescapes.symm.trans hloose) Bool.false_ne_true

/-- Such a run also ends with no signal if nothing had been printed before it. -/
theorem Prepared.goes_through {values : List Value} (h : Prepared source root p code)
    (ha : a.Reachable) {fuel : Nat} {display : Display}
    (hrun : run fuel display source a = .ok values b)
    (hreturn : ¬ EndsByReturn fuel display source a) :
    ∃ results s, code.run fuel .global { a.state with output := "" } = .ok results s ∧
      Value.isSignal results = false ∧
      b.state.erased "" = s.erased (a.state.output ++ display.shown root p) := by
  obtain ⟨code', c, results, hprepare, heval, hsignal⟩ := Session.goes_through ha hrun hreturn
  obtain ⟨c', hprepare', halike⟩ := h.prepare_alike display a
  cases hprepare.symm.trans hprepare'
  have hsame := Code.run_alike (Eq.refl code.erased) halike fuel .global
  rw [heval] at hsame
  cases hrun' : code.run fuel .global { a.state with output := "" } with
  | error e s =>
    rw [hrun'] at hsame
    cases hsame
  | ok results' s =>
    rw [hrun'] at hsame
    obtain ⟨hvalues, hstates⟩ := EStateM.Result.ok.inj hsame
    refine ⟨results', s, rfl, ?_, hstates⟩
    rw [← Value.isSignal_erased, ← hvalues, Value.isSignal_erased, hsignal]

/-- Statements behind others are evaluated from the state that those leave, up to places and to what
was printed. -/
theorem comesTo_append {codes codes' : List Code} (hsome : codes' ≠ [])
    (halike : code.erased = (Code.statements (codes ++ codes')).erased) {fuel : Nat}
    {s s' t : State} {results : List Value} {before : String}
    (heval : (Code.statements codes).run fuel .global { s with output := "" } = .ok results s')
    (hsignal : Value.isSignal results = false) (hstate : t.erased "" = s'.erased before) :
    comesTo fuel code s = (comesTo fuel (.statements codes') t).behind s'.output := by
  obtain ⟨hstore, -, hrest⟩ := State.mk.inj hstate
  have hleft : s'.erased "" = State.erased s'.output { t with output := "" } := by
    simp [State.erased, hstore, hrest]
  rw [comesTo, Code.run_alike halike rfl, Code.run_statements_append hsome hsignal heval,
    Code.run_alike rfl hleft, Outcome.ofResult_resultErased]
  rfl

/-- Two sources that are accepted are accepted as one, the second on a new line behind the first,
if the second has a statement. Where the first runs to its end without a return at the top level,
running them as one comes to what running the second after the first does: to the same values, or
the same error but for its place, and to the same variables, and the same is printed. Where more is
shown of sources than what they print, it stands in front of that. -/
theorem runs_compose {first second : String} {root₁ root₂ : Node} {p₁ p₂ : Program}
    {code₁ code₂ : Code} (h₁ : Prepared first root₁ p₁ code₁)
    (h₂ : Prepared second root₂ p₂ code₂) (hsome : root₂.children ≠ []) :
    ∃ root p code, Prepared (first ++ "\n" ++ second) root p code ∧
      ∀ fuel display a values b, a.Reachable → run fuel display first a = .ok values b →
        ¬ EndsByReturn fuel display first a →
        (display = .plain → outcome (run fuel display (first ++ "\n" ++ second) a) =
          outcome (run fuel display second b)) ∧
        ∃ (printed : String) (o : Outcome),
          b.state.output = a.state.output ++ display.shown root₁ p₁ ++ printed ∧
          outcome (run fuel display second b) =
            o.behind (b.state.output ++ display.shown root₂ p₂) ∧
          outcome (run fuel display (first ++ "\n" ++ second) a) =
            o.behind (a.state.output ++ display.shown root p ++ printed) := by
  obtain ⟨place, place', joined, children, children', nodes, rfl, rfl, hparses, hnodes⟩ :=
    h₁.parses.join h₂.parses
  obtain ⟨p, codes, codes', code, hp, hcode, rfl, rfl, hlength, halike⟩ :=
    Program.compile_join h₁.parses.shaped h₁.analysed h₁.compiled h₂.parses.shaped h₂.analysed
      h₂.compiled hparses.shaped hnodes
  have hprepared : Prepared (first ++ "\n" ++ second) _ p code := ⟨hparses, hp, hcode⟩
  refine ⟨_, p, code, hprepared, fun fuel display a values b ha hrun hreturn => ?_⟩
  obtain ⟨results, s, heval, hsignal, hstate⟩ := h₁.goes_through ha hrun hreturn
  have hcodes' : codes' ≠ [] := by
    rintro rfl
    exact hsome (List.eq_nil_of_length_eq_zero hlength.symm)
  have hprinted := congrArg State.output hstate
  rw [State.output_erased, State.output_erased, String.empty_append] at hprinted
  have hjoined := outcome_of_prepared hprepared fuel display a
  have halone := outcome_of_prepared h₂ fuel display b
  rw [comesTo_append hcodes' halike heval hsignal hstate, Outcome.behind_behind] at hjoined
  refine ⟨?_, s.output, _, hprinted, halone, hjoined⟩
  rintro rfl
  rw [hjoined, halone, hprinted]
  simp [Display.shown, Display.plain]

/-- A variable that the first source assigns is there for the second. -/
theorem runs_compose_print : ∃ root₁ p₁ code₁ root₂ p₂ code₂ b,
    Prepared "x := 1" root₁ p₁ code₁ ∧ Prepared "print(x)\nx + 1" root₂ p₂ code₂ ∧
    root₂.children ≠ [] ∧ run 3 .plain "x := 1" (start 0) = .ok [.int 1] b ∧
    ¬ EndsByReturn 3 .plain "x := 1" (start 0) ∧
    outcome (run 3 .plain "x := 1\nprint(x)\nx + 1" (start 0)) =
      outcome (run 3 .plain "print(x)\nx + 1" b) ∧
    (outcome (run 3 .plain "print(x)\nx + 1" b)).result = .ok [.int 2] ∧
    (outcome (run 3 .plain "print(x)\nx + 1" b)).state.output = "1\n" := by
  have h₁ : Prepared "x := 1" _ _ _ := ⟨⟨_, rfl, rfl⟩, rfl, rfl⟩
  have h₂ : Prepared "print(x)\nx + 1" _ _ _ := ⟨⟨_, rfl, rfl⟩, rfl, rfl⟩
  obtain ⟨root, p, code, -, hruns⟩ := runs_compose h₁ h₂ (List.cons_ne_nil _ _)
  have hreturn : ¬ EndsByReturn 3 .plain "x := 1" (start 0) := by
    rintro ⟨code, b, results, s, hprepare, hrun⟩
    cases hprepare
    cases hrun
  obtain ⟨hsame, -⟩ := hruns 3 .plain (start 0) _ _ (.start 0) rfl hreturn
  exact ⟨_, _, _, _, _, _, _, h₁, h₂, List.cons_ne_nil _ _, rfl, hreturn, hsame rfl, rfl, rfl⟩

end Session

end Scripting

import Scripting.Proofs.Moments
import Scripting.Proofs.Writes
import Scripting.Session

/-!
# Proofs: the sessions that can be reached

A session is reached from a new one by runs, also by those that fail, and by time that passes
between them. A run first prepares its code and leaves the store alone until then; after that all it
does is in the moments within the evaluation of that code. The invariant holds in every session that
is reached and at every moment of its next run.
-/

namespace Scripting

/-! ## The functions of the library -/

namespace Store

variable {s s' : Store} {scope : Scope} {name : String} {value : Value}

theorem sound_empty : (empty.newFrame ∅).2.Sound := by
  have hbindings : ∀ frame, (empty.newFrame ∅).2.bindings frame = ∅ := by
    intro frame
    rw [bindings_newFrame]
    split
    · rfl
    · rfl
  have hbinds : ∀ {x c}, ¬ (empty.newFrame ∅).2.Binds x c := by
    rintro x c ⟨frame, h⟩
    rw [hbindings] at h
    simp at h
  refine ⟨⟨fun h => (hbinds h).elim, fun h => (hbinds h).elim⟩, by simp [newFrame], fun c => ?_⟩
  have hread : (empty.newFrame ∅).2.read c = .nil := by simp [read, newFrame, empty]
  rw [hread]
  trivial

/-- What a session does to bind a function of the library. -/
theorem Sound.installed (h : s.Sound) (hframe : scope.frame < s.frames.size)
    (hv : value.IsData s) :
    ((s.set scope name value).toOption.getD s).Sound ∧
      scope.frame < ((s.set scope name value).toOption.getD s).frames.size := by
  cases hset : s.set scope name value with
  | error => exact ⟨h, hframe⟩
  | ok s' =>
    have he : s.Extends (fun _ => True) (s.put scope name value) :=
      extends_put hframe value fun _ => trivial
    rw [set_eq_ok hset]
    exact ⟨h.put hframe hv, Nat.lt_of_lt_of_le hframe he.frames⟩

theorem Sound.install (h : s.Sound) (hframe : scope.frame < s.frames.size) :
    (s.install scope).Sound := by
  have hprint : ∀ s : Store, (Value.function .print).IsData s := fun _ => ⟨nofun, .inl (.inl rfl)⟩
  have hclock : ∀ s : Store, (Value.function .clock).IsData s := fun _ => ⟨nofun, .inl (.inr rfl)⟩
  obtain ⟨h₁, hframe₁⟩ := h.installed hframe (hprint s)
  exact (h₁.installed hframe₁ (hclock _)).1

end Store

namespace Session

/-! ## Preparing a run -/

/-- The tree of a source. -/
def parsed (source : String) : SessionM Node := do
  let tokens ← orStop .scan (Token.scan source)
  match Node.ofTokens tokens with
  | .ok root => return root
  | .error e => throw (e.map .parse)

/-- Prints a text if it is to be shown. -/
def printIf (shown : Bool) (text : String) : SessionM Unit :=
  if shown then evaluating (Eval.print text) else return ()

theorem printIf_eq (shown : Bool) (text : String) (a : Session) : printIf shown text a =
    .ok () { a with
      state := { a.state with output := a.state.output ++ if shown then text else "" } } := by
  cases shown with
  | false =>
    rw [if_neg Bool.false_ne_true, String.append_empty]
    rfl
  | true => rfl

/-- All that a run does before it evaluates. It yields the code. -/
def prepare (display : Display) (source : String) : SessionM Code := do
  let root ← parsed source
  printIf display.tree (root.sexpr ++ "\n")
  let known := (← get).globalNames
  let program ← orStop .analysis (Program.ofNode root)
  modify fun s => { s with warnings := s.warnings ++ program.warnings known }
  printIf display.analyses program.reports
  orStop .compile program.compile

theorem run_eq (fuel : Nat) (display : Display) (source : String) :
    run fuel display source = do
      let code ← prepare display source
      return Eval.returned (← evaluating (code.run fuel .global)) := by
  unfold run prepare parsed evaluate printIf
  simp only [bind_assoc]
  refine bind_congr fun tokens => ?_
  cases Node.ofTokens tokens with
  | error e => rfl
  | ok root =>
    obtain ⟨tree, analyses⟩ := display
    cases tree <;> cases analyses
    all_goals simp only [pure_bind, Bool.false_eq_true, if_false, if_true]

/-- The computation does not touch the store. -/
def LeavesStore {α : Type} (m : SessionM α) : Prop :=
  ∀ a, match m a with
    | .ok _ b | .error _ b => b.state.store = a.state.store

section

variable {α β : Type} {m : SessionM α} {f : α → SessionM β} {a b : Session}

theorem LeavesStore.ok (h : LeavesStore m) {x : α} (hm : m a = .ok x b) :
    b.state.store = a.state.store := by
  have ha := h a
  rw [hm] at ha
  exact ha

theorem LeavesStore.error (h : LeavesStore m) {e : Stop Error} (hm : m a = .error e b) :
    b.state.store = a.state.store := by
  have ha := h a
  rw [hm] at ha
  exact ha

theorem LeavesStore.bind (hm : LeavesStore m) (hf : ∀ x, LeavesStore (f x)) :
    LeavesStore (m >>= f) := by
  intro a
  cases h : m a with
  | ok x b =>
    rw [bind_ok h]
    have hb := hf x b
    rw [hm.ok h] at hb
    exact hb
  | error e b =>
    rw [bind_error h]
    exact hm.error h

theorem leavesStore_pure (x : α) : LeavesStore (pure x) := fun _ => rfl

theorem leavesStore_orStop {ε : Type} (kind : ε → Error) (result : Except ε α) :
    LeavesStore (orStop kind result) := by
  cases result <;> exact fun _ => rfl

theorem leavesStore_printIf (shown : Bool) (text : String) : LeavesStore (printIf shown text) := by
  cases shown <;> exact fun _ => rfl

end

theorem leavesStore_prepare (display : Display) (source : String) :
    LeavesStore (prepare display source) := by
  unfold prepare
  have hparsed : LeavesStore (parsed source) := by
    refine (leavesStore_orStop _ _).bind fun tokens => ?_
    split
    · exact leavesStore_pure _
    · exact fun _ => rfl
  refine hparsed.bind fun root => (leavesStore_printIf _ _).bind fun _ => ?_
  refine LeavesStore.bind (fun _ => rfl) fun known => (leavesStore_orStop _ _).bind fun p => ?_
  refine LeavesStore.bind (fun _ => rfl) fun _ => (leavesStore_printIf _ _).bind fun _ => ?_
  exact leavesStore_orStop _ _

theorem eq_of_orStop {α ε : Type} {kind : ε → Error} {result : Except ε α} {x : α}
    {a b : Session} (h : orStop kind result a = .ok x b) : result = .ok x := by
  cases result <;> cases h
  rfl

/-- The source can be read, and this is its tree. -/
def Parses (source : String) (root : Node) : Prop :=
  ∃ tokens, Token.scan source = .ok tokens ∧ Node.ofTokens tokens = .ok root

theorem parses_of_parsed {source : String} {root : Node} {a b : Session}
    (h : parsed source a = .ok root b) : Parses source root := by
  unfold parsed at h
  obtain ⟨tokens, _, hscan, h⟩ := ok_of_bind h
  cases hparse : Node.ofTokens tokens with
  | ok root' =>
    rw [hparse] at h
    cases h
    exact ⟨tokens, eq_of_orStop hscan, hparse⟩
  | error e =>
    rw [hparse] at h
    cases h

theorem parsed_of_parses {source : String} {root : Node} (h : Parses source root) (a : Session) :
    parsed source a = .ok root a := by
  obtain ⟨tokens, hscan, hparse⟩ := h
  unfold parsed
  rw [hscan, bind_ok (show orStop .scan (.ok tokens) a = .ok tokens a from rfl), hparse]
  rfl

/-- Prepared code is the code of an analysed program. -/
theorem compile_of_prepare {display : Display} {source : String} {a b : Session} {code : Code}
    (h : prepare display source a = .ok code b) :
    ∃ root p, Parses source root ∧ Program.ofNode root = .ok p ∧ p.compile = .ok code := by
  unfold prepare at h
  obtain ⟨root, _, hparsed, h⟩ := ok_of_bind h
  obtain ⟨_, _, _, h⟩ := ok_of_bind h
  obtain ⟨_, _, _, h⟩ := ok_of_bind h
  obtain ⟨p, _, hp, h⟩ := ok_of_bind h
  obtain ⟨_, _, _, h⟩ := ok_of_bind h
  obtain ⟨_, _, _, h⟩ := ok_of_bind h
  exact ⟨root, p, parses_of_parsed hparsed, eq_of_orStop hp, eq_of_orStop h⟩

/-! ## Sessions and moments that are reached -/

/-- The sessions that there may be between two runs. -/
inductive Reachable : Session → Prop
  | start (clock : Clock) : Reachable (.start clock)
  /-- A run succeeds. -/
  | run {a b fuel display source values} (ha : Reachable a)
    (h : run fuel display source a = .ok values b) : Reachable b
  /-- A run fails, or its bound is reached. -/
  | failed {a b fuel display source e} (ha : Reachable a)
    (h : run fuel display source a = .error e b) : Reachable b
  /-- What was printed is written out, and time passes. -/
  | later {a} (ha : Reachable a) (clock : Clock) :
    Reachable { a with state := { a.state with output := "", clock := clock } }

/-- The moment belongs to a run of some source in the session. -/
def Visits (a : Session) (m : Moment) : Prop :=
  ∃ display source code b level, prepare display source a = .ok code b ∧
    Moment.Within ⟨level, .code code .global, b.state⟩ m

variable {a b : Session} {m : Moment}

/-- The code of a source is ready at the top level, and no break or continue leaves it. -/
theorem ready_of_prepare (ha : a.state.store.Sound) {display : Display} {source : String}
    {code : Code} (h : prepare display source a = .ok code b) :
    b.state.store.Sound ∧ code.Ready b.state.store .global ∧ code.escapes = false := by
  have hstore : b.state.store = a.state.store := (leavesStore_prepare display source).ok h
  obtain ⟨root, p, -, hp, hcode⟩ := compile_of_prepare h
  obtain ⟨survey, hsurvey, hprogram⟩ := bind_eq_ok_iff.1 hp
  have hroot : p.root = root := by
    cases hprogram
    rfl
  unfold Program.compile at hcode
  rw [hroot] at hcode
  have hnoted : code.Every (Code.Noted survey.mentions) :=
    Node.noted_of_compile hp root rfl hsurvey hcode
  refine ⟨hstore ▸ ha, ⟨?_, hnoted.mono fun _ hn => hn.placed, fun h0 => absurd rfl h0⟩, ?_⟩
  · exact hstore ▸ ha.global
  · exact Node.escapes_eq_false hcode

/-- The parts of a run that evaluates: what it prepares, and how evaluation ends. -/
theorem run_cases (fuel : Nat) (display : Display) (source : String) (a : Session) :
    (∃ e b, prepare display source a = .error e b ∧ run fuel display source a = .error e b) ∨
    ∃ code b, prepare display source a = .ok code b ∧
      match code.run fuel .global b.state with
      | .ok values s => run fuel display source a = .ok (Eval.returned values) { b with state := s }
      | .error e s =>
        run fuel display source a = .error (e.map .runtime) { b with state := s } := by
  rw [run_eq]
  cases h : prepare display source a with
  | error e b => exact Or.inl ⟨e, b, rfl, bind_error h⟩
  | ok code b =>
    refine Or.inr ⟨code, b, rfl, ?_⟩
    rw [bind_ok h]
    cases hrun : code.run fuel .global b.state with
    | ok values s =>
      have heval : evaluating (code.run fuel .global) b = .ok values { b with state := s } := by
        simp [evaluating, hrun]
      exact bind_ok heval
    | error e s =>
      have heval : evaluating (code.run fuel .global) b =
          .error (e.map .runtime) { b with state := s } := by
        simp [evaluating, hrun]
      exact bind_error heval

/-- A run keeps the store sound, and its values are data. -/
theorem sound_of_run (ha : a.state.store.Sound) (fuel : Nat) (display : Display)
    (source : String) :
    match run fuel display source a with
    | .ok values b => b.state.store.Sound ∧ Value.AreData b.state.store values
    | .error _ b => b.state.store.Sound := by
  rcases run_cases fuel display source a with ⟨e, b, h, hrun⟩ | ⟨code, b, h, hrun⟩
  · rw [hrun]
    show b.state.store.Sound
    rw [(leavesStore_prepare display source).error h]
    exact ha
  · obtain ⟨hb, hready, hescapes⟩ := ready_of_prepare ha h
    have hsafe := Code.codeSafe_run fuel code .global b.state hb hready
    cases heval : code.run fuel .global b.state with
    | ok values s =>
      rw [heval] at hrun
      obtain ⟨hs, -, hy⟩ := hsafe.of_ok heval
      rw [hrun]
      exact ⟨hs, (hy.mono fun he => Bool.false_ne_true (hescapes.symm.trans he)).returned⟩
    | error e s =>
      rw [heval] at hrun
      rw [hrun]
      exact (hsafe.of_error heval).1

/-- The run lemma of sessions: the store is sound in every session that is reached. -/
theorem Reachable.sound (ha : a.Reachable) : a.state.store.Sound := by
  induction ha with
  | start clock =>
    have hframe : Scope.global.frame < (Store.empty.newFrame ∅).2.frames.size := Nat.one_pos
    exact Store.sound_empty.install hframe
  | @run a b fuel display source values _ h ih =>
    have hrun := sound_of_run ih fuel display source
    rw [h] at hrun
    exact hrun.1
  | @failed a b fuel display source e _ h ih =>
    have hrun := sound_of_run ih fuel display source
    rw [h] at hrun
    exact hrun
  | later _ _ ih => exact ih

/-- Every moment of every run is fine. -/
theorem Visits.fine (h : a.Visits m) (ha : a.Reachable) : m.Fine := by
  obtain ⟨display, source, code, b, level, hprepare, hwithin⟩ := h
  obtain ⟨hb, hready, -⟩ := ready_of_prepare ha.sound hprepare
  exact (hwithin.leads ⟨hb, hready⟩).fine

end Session

end Scripting

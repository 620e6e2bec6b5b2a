import Scripting.Proofs.Policies

/-!
# Proofs: what the sources of a session have in common

If all trees of the sources of a session have a property, then every function that there is in the
session is of the library or comes from a literal in a tree that has it. What a tree lacks, the
analyses of its functions lack.
-/

namespace Scripting

/-! ## Trees -/

namespace Node

/-- The node and all nodes below satisfy `P`. -/
inductive Each (P : Node → Prop) : Node → Prop
  | node {kind literal position children} (h : P ⟨kind, literal, position, children⟩)
    (hchildren : ∀ child ∈ children, Each P child) : Each P ⟨kind, literal, position, children⟩

variable {P : Node → Prop} {root node : Node} {path : Path} {x : String}

theorem Each.self (h : Each P node) : P node := by
  cases h with
  | node h => exact h

theorem Each.child (h : Each P node) {child : Node} (hc : child ∈ node.children) :
    Each P child := by
  cases h with
  | node _ hchildren => exact hchildren child hc

theorem each_iff {kind : Kind} {literal : String} {position : Position} {children : List Node} :
    Each P ⟨kind, literal, position, children⟩ ↔
      P ⟨kind, literal, position, children⟩ ∧ ∀ child ∈ children, Each P child :=
  ⟨fun h => ⟨h.self, fun _ hc => h.child hc⟩, fun h => .node h.1 h.2⟩

theorem Each.at? (h : Each P root) (hat : root.at? path = some node) : Each P node := by
  induction path generalizing node with
  | nil =>
    cases hat
    exact h
  | cons index path ih =>
    obtain ⟨parent, hparent, hchild⟩ := Option.bind_eq_some_iff.1 hat
    exact (ih hparent).child (List.mem_of_getElem? hchild)

/-- The node declares no name to belong outside. -/
def NoExtern (node : Node) : Prop :=
  node.kind ≠ .externWord

/-- The node is no function with channels. -/
def NoChannel (node : Node) : Prop :=
  node.kind = .funcWord → ∀ channels, node.children[1]? = some channels →
    channels.nameList = .ok []

theorem externs_of_surveys {nodes : List Node} {index : Nat} {s : Survey}
    (h : surveys path index nodes = .ok s)
    (ih : ∀ node ∈ nodes, ∀ {path : Path} {s : Survey}, node.survey path = .ok s →
      x ∉ s.mentions.externs) : x ∉ s.mentions.externs := by
  induction nodes generalizing index s with
  | nil =>
    rw [surveys] at h
    cases h
    exact Names.not_mem_empty
  | cons first rest ihr =>
    obtain ⟨a, b, ha, hb, rfl⟩ := surveys_cons h
    intro hx
    rcases Names.mem_union.1 hx with hx | hx
    · exact ih first List.mem_cons_self ha hx
    · exact ihr hb (fun node hn => ih node (List.mem_cons_of_mem _ hn)) hx

/-- Without declarations nothing is declared to belong outside. -/
theorem not_mem_externs_of_survey (node : Node) : ∀ {path : Path} {s : Survey},
    node.Each NoExtern → node.survey path = .ok s → x ∉ s.mentions.externs := by
  induction node using Node.induct with
  | h kind literal position children ih =>
    intro path s hnode hs
    have hrow : ∀ {index : Nat} {nodes : List Node} {s' : Survey},
        (∀ node ∈ nodes, node ∈ children) → surveys path index nodes = .ok s' →
        x ∉ s'.mentions.externs := by
      intro index nodes s' hnodes hs'
      exact externs_of_surveys hs' fun node hn =>
        ih node (hnodes node hn) (hnode.child (hnodes node hn))
    have hjoin : ∀ {a b : Survey}, x ∉ a.mentions.externs → x ∉ b.mentions.externs →
        x ∉ (a ++ b).mentions.externs :=
      fun ha hb hx => (Names.mem_union.1 hx).elim ha hb
    cases surveyed_of_survey hs with
    | function | object | nothing => exact Names.not_mem_empty
    | method _ h =>
      refine hjoin Names.not_mem_empty (hrow (fun node hn => ?_) h)
      exact List.mem_cons_of_mem _ (List.mem_cons_of_mem _ hn)
    | assignment _ _ h | name h => exact hjoin Names.not_mem_empty (hrow (fun _ hn => hn) h)
    | declaration => exact absurd rfl hnode.self
    | field h => exact ih _ List.mem_cons_self (hnode.child List.mem_cons_self) h
    | other _ h => exact hrow (fun _ hn => hn) h

end Node

namespace Analysis

variable {Q : Node → Prop} {a : Analysis} {body : Code} {x : String}

theorem GovernsIn.not_mem_externs (h : a.GovernsIn (Node.Each Node.NoExtern) body) :
    x ∉ a.externs := by
  obtain ⟨root, p, path, node, s, hroot, -, hat, -⟩ := h
  obtain ⟨literal, position, parameters, channels, rest, hnode, -, -⟩ := hat.node
  have hbody : node.Each Node.NoExtern := (hroot.at? hnode).child (by simp)
  rw [hat.analysis]
  exact Node.not_mem_externs_of_survey node hbody hat.survey

theorem GovernsIn.channels (h : a.GovernsIn (Node.Each Node.NoChannel) body) :
    a.channels = [] := by
  obtain ⟨root, p, path, node, s, hroot, -, hat, -⟩ := h
  obtain ⟨literal, position, parameters, channels, rest, hnode, -, hchannels⟩ := hat.node
  have hnone : channels.nameList = .ok [] := (hroot.at? hnode).self rfl channels rfl
  exact (Except.ok.inj (hnone.symm.trans hchannels)).symm

/-- The functions in the body of a function are placed in the same program. -/
theorem GovernsIn.placedIn (h : a.GovernsIn Q body) : body.Every (Code.PlacedIn Q) := by
  obtain ⟨root, p, path, node, s, hroot, hp, hat, hcode⟩ := h
  obtain ⟨literal, position, parameters, channels, rest, hnode, -, -⟩ := hat.node
  have hbody : root.at? (2 :: path) = some node := Node.at?_child hnode rfl
  exact Node.placedIn_of_compile hroot hp hbody hcode

end Analysis

/-! ## Functions -/

namespace Function

/-- The function is of the library, or a literal in a tree that satisfies `Q` made it. -/
def From (Q : Node → Prop) (f : Function) : Prop :=
  f.IsNative ∨ ∃ a, a.GovernsIn Q f.body ∧ f.MadeFrom a

variable {Q : Node → Prop} {f : Function}

theorem From.placedIn (h : f.From Q) : f.body.Every (Code.PlacedIn Q) := by
  rcases h with (rfl | rfl) | ⟨a, hgoverns, -⟩
  · exact ⟨trivial, trivial⟩
  · exact ⟨trivial, trivial⟩
  · exact hgoverns.placedIn

theorem from_of_found {l : FunctionLiteral} {scope : Scope} {s : State}
    (hplaced : l.code.PlacedIn Q) (hfound : ∀ x ∈ l.free, (s.store.cell? scope x).isSome) :
    (l.closure s.nextFunction s.store scope).From Q := by
  obtain ⟨a, hgoverns, hmade, -⟩ := FunctionLiteral.madeFrom_closure hplaced hfound
  exact Or.inr ⟨a, hgoverns, hmade⟩

end Function

namespace Moment

variable {P : Code → Prop} {m m' : Moment}

theorem Starts.every (h : m.Starts m')
    (hcall : ∀ f values caller position, m.task = .call f values caller position →
      f.body.Every P) (hP : m.task.Every P) : m'.task.Every P := by
  rcases h.inner with ⟨f, values, caller, position, htask⟩ | ⟨-, hevery, -⟩
  · cases h with
    | locals | parameters => trivial
    | enter => exact hcall _ _ _ _ rfl
    | _ => cases htask
  · exact hevery P hP

end Moment

/-- All functions come from trees that satisfy `Q`, and so does all code. -/
def Policy.origin (Q : Node → Prop) : Policy where
  allows := Function.From Q
  holds m := m.task.Every (Code.PlacedIn Q)
  may _ _ := True
  refl _ := trivial
  trans _ _ := trivial
  step {a b} h hstep := by
    refine hstep.every (fun f values caller position htask => ?_) h.holds
    have haccepts := h.accepts
    rw [htask] at haccepts
    exact haccepts.1.placedIn
  made h hfound := Function.from_of_found (Code.Every.self h.holds) hfound
  write _ _ := trivial
  frame _ := trivial

/-! ## Sessions -/

namespace Session

/-- All trees of the source satisfy `Q`. -/
def Reads (Q : Node → Prop) (source : String) : Prop :=
  ∀ root, Parses source root → Q root

theorem reads_of_parses {Q : Node → Prop} {source : String} {root : Node}
    (h : Parses source root) (hQ : Q root) : Reads Q source := by
  rintro root' ⟨tokens', hscan', hparse'⟩
  obtain ⟨tokens, hscan, hparse⟩ := h
  cases hscan.symm.trans hscan'
  cases hparse.symm.trans hparse'
  exact hQ

/-- The sessions that are reached by sources whose trees satisfy `Q`. -/
inductive ReachedBy (Q : Node → Prop) : Session → Prop
  | start (clock : Clock) : ReachedBy Q (.start clock)
  | run {a b fuel display source values} (ha : ReachedBy Q a) (hsource : Reads Q source)
    (h : run fuel display source a = .ok values b) : ReachedBy Q b
  | failed {a b fuel display source e} (ha : ReachedBy Q a) (hsource : Reads Q source)
    (h : run fuel display source a = .error e b) : ReachedBy Q b
  | later {a} (ha : ReachedBy Q a) (clock : Clock) :
    ReachedBy Q { a with state := { a.state with output := "", clock := clock } }

/-- The moment belongs to a run of a source whose trees satisfy `Q`. -/
def VisitsBy (Q : Node → Prop) (a : Session) (m : Moment) : Prop :=
  ∃ display source code b level, Reads Q source ∧ prepare display source a = .ok code b ∧
    Moment.Within ⟨level, .code code .global, b.state⟩ m

variable {Q : Node → Prop} {a b : Session} {m : Moment} {display : Display} {source : String}
  {code : Code}

theorem placedIn_of_prepare (hsource : Reads Q source)
    (h : prepare display source a = .ok code b) : code.Every (Code.PlacedIn Q) := by
  obtain ⟨root, p, hparses, hp, hcode⟩ := compile_of_prepare h
  have hroot : p.root = root := by
    obtain ⟨_, _, hprogram⟩ := bind_eq_ok_iff.1 hp
    cases hprogram
    rfl
  unfold Program.compile at hcode
  rw [hroot] at hcode
  exact Node.placedIn_of_compile (hsource root hparses) hp rfl hcode

/-- A run keeps to allowed functions if some policy that allows them is kept at its start. -/
theorem clean_of_run {allows : Function → Prop} (fuel : Nat) (display : Display) (source : String)
    (ha : a.state.store.Clean allows)
    (hgood : ∀ code b level, fuel = level + 1 → prepare display source a = .ok code b →
      ∃ P : Policy, P.allows = allows ∧ P.Good ⟨level, .code code .global, b.state⟩) :
    match run fuel display source a with
    | .ok _ b | .error _ b => b.state.store.Clean allows := by
  rcases run_cases fuel display source a with ⟨e, b, h, hrun⟩ | ⟨code, b, h, hrun⟩
  · rw [hrun]
    show b.state.store.Clean allows
    rw [(leavesStore_prepare display source).error h]
    exact ha
  · cases heval : code.run fuel .global b.state with
    | ok values s =>
      rw [heval] at hrun
      rw [hrun]
      cases fuel with
      | zero => cases heval
      | succ level =>
        obtain ⟨P, rfl, hP⟩ := hgood code b level rfl h
        exact ((P.keeps hP).of_ok heval).2.1
    | error e s =>
      rw [heval] at hrun
      rw [hrun]
      cases fuel with
      | zero =>
        cases heval
        show b.state.store.Clean allows
        rw [(leavesStore_prepare display source).ok h]
        exact ha
      | succ level =>
        obtain ⟨P, rfl, hP⟩ := hgood code b level rfl h
        exact ((P.keeps hP).of_error heval).2

theorem isNative_of_start {clock : Clock} {cell : CellId} {f : Function}
    (h : (Session.start clock).state.store.read cell = .function f) : f.IsNative := by
  have hcells : (Session.start clock).state.store.cells =
    #[.function .print, .function .clock] := rfl
  unfold Store.read at h
  rw [hcells] at h
  match cell, h with
  | 0, h =>
    cases h
    exact Or.inl rfl
  | 1, h =>
    cases h
    exact Or.inr rfl
  | _ + 2, h => simp at h

end Session

namespace Policy

open Session

/-- The library keeps to the policy, and so does the start of each run of a source whose trees
satisfy `Q`. -/
structure Suits (P : Policy) (Q : Node → Prop) : Prop where
  native : ∀ f, f.IsNative → P.allows f
  holds : ∀ {a b : Session} {display : Display} {source : String} {code : Code} (level : Nat),
    Reads Q source → prepare display source a = .ok code b →
      P.holds ⟨level, .code code .global, b.state⟩

variable {P : Policy} {Q : Node → Prop} {a b : Session} {m : Moment} {display : Display}
  {source : String} {code : Code}

theorem Suits.good_of_prepare (h : P.Suits Q) (ha : a.state.store.Clean P.allows)
    (hsource : Reads Q source) (hprepare : prepare display source a = .ok code b) (level : Nat) :
    P.Good ⟨level, .code code .global, b.state⟩ := by
  obtain ⟨hb, hready, -⟩ := ready_of_prepare ha.sound hprepare
  have hclean : b.state.store.Clean P.allows := by
    rw [(leavesStore_prepare display source).ok hprepare]
    exact ha
  exact ⟨⟨hb, hready⟩, hclean, trivial, h.holds level hsource hprepare⟩

/-- The run lemma of sessions for a policy. -/
theorem Suits.clean (h : P.Suits Q) (ha : a.ReachedBy Q) : a.state.store.Clean P.allows := by
  induction ha with
  | start clock =>
    exact ⟨(Reachable.start clock).sound, fun cell f hread => h.native f (isNative_of_start hread)⟩
  | @run a b fuel display source values _ hsource hrun ih =>
    have hclean := clean_of_run fuel display source ih fun code b level _ hprepare =>
      ⟨P, rfl, h.good_of_prepare ih hsource hprepare level⟩
    rw [hrun] at hclean
    exact hclean
  | @failed a b fuel display source e _ hsource hrun ih =>
    have hclean := clean_of_run fuel display source ih fun code b level _ hprepare =>
      ⟨P, rfl, h.good_of_prepare ih hsource hprepare level⟩
    rw [hrun] at hclean
    exact hclean
  | later _ _ ih => exact ih

/-- At every moment of every run the policy is kept. -/
theorem Suits.good (h : P.Suits Q) (hm : a.VisitsBy Q m) (ha : a.ReachedBy Q) : P.Good m := by
  obtain ⟨display, source, code, b, level, hsource, hprepare, hwithin⟩ := hm
  exact P.within (h.good_of_prepare (h.clean ha) hsource hprepare level) hwithin

theorem origin_suits (Q : Node → Prop) : (origin Q).Suits Q :=
  ⟨fun _ hnative => Or.inl hnative, fun _ hsource hprepare => placedIn_of_prepare hsource hprepare⟩

end Policy

/-- At every moment of every run, all functions come from trees that satisfy `Q`. -/
theorem Session.VisitsBy.good {Q : Node → Prop} {a : Session} {m : Moment} (h : a.VisitsBy Q m)
    (ha : a.ReachedBy Q) : (Policy.origin Q).Good m :=
  (Policy.origin_suits Q).good h ha

end Scripting

import Scripting.Proofs.Origins
import Scripting.Proofs.References

/-!
# Proofs: compiled code keeps to the analysis

The survey and the compiler go through a tree apart from each other. What the code of a node looks
up, assigns and takes along, the survey has noted for the function around it, so the lists that a
function value gets from its analysis cover its body. A break or continue is compiled only inside a
loop.
-/

namespace Scripting

namespace Mentions

/-- Everything mentioned or assigned in `m`, or taken from outside, is in `m'` too. -/
structure Le (m m' : Mentions) : Prop where
  identifiers : ∀ x ∈ m.identifiers, x ∈ m'.identifiers
  assigned : ∀ x ∈ m.assigned, x ∈ m'.assigned
  nested : ∀ x ∈ m.nested, x ∈ m'.nested

theorem Le.refl (m : Mentions) : m.Le m := ⟨fun _ h => h, fun _ h => h, fun _ h => h⟩

theorem Le.trans {a b c : Mentions} (h : a.Le b) (h' : b.Le c) : a.Le c :=
  ⟨fun x hx => h'.identifiers x (h.identifiers x hx),
    fun x hx => h'.assigned x (h.assigned x hx), fun x hx => h'.nested x (h.nested x hx)⟩

theorem le_append_left (a b : Mentions) : a.Le (a ++ b) :=
  ⟨fun _ hx => Names.mem_union.2 (Or.inl hx), fun _ hx => Names.mem_union.2 (Or.inl hx),
    fun _ hx => Names.mem_union.2 (Or.inl hx)⟩

theorem le_append_right (a b : Mentions) : b.Le (a ++ b) :=
  ⟨fun _ hx => Names.mem_union.2 (Or.inr hx), fun _ hx => Names.mem_union.2 (Or.inr hx),
    fun _ hx => Names.mem_union.2 (Or.inr hx)⟩

end Mentions

namespace Survey

theorem PartOf.le {s s' : Survey} (h : s.PartOf s') : s.mentions.Le s'.mentions := by
  induction h with
  | refl => exact .refl _
  | left _ b ih => exact ih.trans (Mentions.le_append_left _ _)
  | right _ a ih => exact ih.trans (Mentions.le_append_right _ _)

end Survey

namespace Analysis

/-- `body` is the code of the body of a function that has the analysis `a` in an analysed
program. -/
def Governs (a : Analysis) (body : Code) : Prop :=
  ∃ root p path node s, Program.ofNode root = .ok p ∧ Node.FunctionAt root path a node s ∧
    node.compile p.analysis? false (2 :: path) = .ok body

/-- `Governs` in a program whose tree satisfies `Q`. -/
def GovernsIn (Q : Node → Prop) (a : Analysis) (body : Code) : Prop :=
  ∃ root p path node s, Q root ∧ Program.ofNode root = .ok p ∧
    Node.FunctionAt root path a node s ∧ node.compile p.analysis? false (2 :: path) = .ok body

theorem GovernsIn.governs {Q : Node → Prop} {a : Analysis} {body : Code}
    (h : a.GovernsIn Q body) : a.Governs body := by
  obtain ⟨root, p, path, node, s, -, h⟩ := h
  exact ⟨root, p, path, node, s, h⟩

theorem Governs.governsIn {a : Analysis} {body : Code} (h : a.Governs body) :
    a.GovernsIn (fun _ => True) body := by
  obtain ⟨root, p, path, node, s, h⟩ := h
  exact ⟨root, p, path, node, s, trivial, h⟩

end Analysis

namespace Code

/-- Code that yields a function has the lists of the function's analysis. -/
def Placed : Code → Prop
  | .function parameters channels locals free passed body _ =>
    ∃ a : Analysis, a.Governs body ∧ parameters = a.parameters ∧ channels = a.channels ∧
      locals = a.locals.toList ∧ free = a.free.toList ∧ passed = (a.captures \ a.free).toList
  | _ => True

/-- `Placed` in a program whose tree satisfies `Q`. -/
def PlacedIn (Q : Node → Prop) : Code → Prop
  | .function parameters channels locals free passed body _ =>
    ∃ a : Analysis, a.GovernsIn Q body ∧ parameters = a.parameters ∧ channels = a.channels ∧
      locals = a.locals.toList ∧ free = a.free.toList ∧ passed = (a.captures \ a.free).toList
  | _ => True

theorem Placed.placedIn {code : Code} (h : code.Placed) : code.PlacedIn fun _ => True := by
  cases code with
  | function =>
    obtain ⟨a, ha, h⟩ := h
    exact ⟨a, ha.governsIn, h⟩
  | _ => trivial

/-- What a construct itself looks up, assigns and takes along is noted in `m`. -/
structure Noted (m : Mentions) (code : Code) : Prop where
  reads : ∀ x ∈ code.reads, x ∈ m.identifiers
  targets : ∀ x ∈ code.targets, x ∈ m.assigned
  taken : ∀ x ∈ code.taken, x ∈ m.nested
  placed : code.Placed

theorem Noted.mono {m m' : Mentions} (hm : m.Le m') {code : Code} (h : code.Noted m) :
    code.Noted m' :=
  ⟨fun x hx => hm.identifiers x (h.reads x hx), fun x hx => hm.assigned x (h.targets x hx),
    fun x hx => hm.nested x (h.taken x hx), h.placed⟩

/-- A construct that looks up and assigns nothing itself keeps to all notes. -/
theorem noted_of_no_uses {m : Mentions} {code : Code} (hreads : code.reads = [])
    (htargets : code.targets = []) (htaken : code.taken = []) (hplaced : code.Placed) :
    code.Noted m :=
  ⟨fun _ hx => absurd hx (hreads ▸ List.not_mem_nil),
    fun _ hx => absurd hx (htargets ▸ List.not_mem_nil),
    fun _ hx => absurd hx (htaken ▸ List.not_mem_nil), hplaced⟩

theorem Links.placedIn {Q : Node → Prop} {code : Code} (h : code.Links) : code.PlacedIn Q := by
  cases code with
  | function => exact h.elim
  | _ => trivial

theorem Links.noted {m : Mentions} {code : Code} (h : code.Links) : code.Noted m := by
  cases code with
  | nothing | sequence | both | branch => exact noted_of_no_uses rfl rfl rfl trivial
  | _ => exact h.elim

end Code

namespace Node

variable {root : Node} {p : Program} {path : Path} {analysis? : Path → Option Analysis}
  {inLoop : Bool}

/-- A node whose parts are code is surveyed with all its children. -/
theorem survey_child {kind : Kind} {literal : String} {position : Position} {children : List Node}
    {s : Survey} (h : survey path ⟨kind, literal, position, children⟩ = .ok s)
    (hkind : kind ∉ [Kind.funcWord, .methodCall, .period])
    {i : Nat} {child : Node} (hc : children[i]? = some child) :
    ∃ s', child.survey (i :: path) = .ok s' ∧ s'.PartOf s :=
  survey_of_shares h (Kind.sharesChild_of_not_mem hkind i) hc

/-- The names that an assignment gives values to are those that the survey notes. -/
theorem eq_of_mapM_leftmostName {fault : CompileError} :
    ∀ {nodes : List Node} {targets names : List String},
      (nodes.mapM fun node => if node.kind = .identifier then Except.ok node.literal
        else .error fault) = .ok targets →
      nodes.mapM leftmostName = .ok names → targets = names
  | [], targets, names, ht, hn => by
    cases ht
    cases hn
    rfl
  | ⟨kind, literal, position, children⟩ :: rest, targets, names, ht, hn => by
    rw [List.mapM_cons] at ht hn
    obtain ⟨first, hfirst, ht⟩ := bind_eq_ok_iff.1 ht
    obtain ⟨others, hothers, ht⟩ := bind_eq_ok_iff.1 ht
    obtain ⟨first', hfirst', hn⟩ := bind_eq_ok_iff.1 hn
    obtain ⟨others', hothers', hn⟩ := bind_eq_ok_iff.1 hn
    cases ht
    cases hn
    rw [eq_of_mapM_leftmostName hothers hothers']
    split at hfirst
    · next e =>
      cases e
      rw [leftmostName] at hfirst'
      rw [← Except.ok.inj hfirst, ← Except.ok.inj hfirst']
    · cases hfirst

/-- What the left side of an assignment gives values to, the survey has noted as assigned. -/
theorem assigned_of_targets {kind : Kind} {literal : String} {position : Position}
    {children : List Node} {s : Survey} {names : List String}
    (h : survey path ⟨kind, literal, position, children⟩ = .ok s)
    (hkind : kind = .assign ∨ kind = .default ∨ kind = .accumulate)
    (ht : targets kind position children = .ok names) :
    ∀ x ∈ names, x ∈ s.mentions.assigned := by
  cases surveyed_of_survey h with
  | assignment _ hnoted =>
    intro x hx
    rw [targets] at ht
    rw [eq_of_mapM_leftmostName ht hnoted] at hx
    exact Names.mem_union.2 (Or.inl (Names.mem_ofList.2 hx))
  | other hother => rcases hkind with rfl | rfl | rfl <;> exact absurd (by decide) hother
  | _ => simp at hkind

theorem identifiers_of_survey {literal : String} {position : Position} {children : List Node}
    {s : Survey} (h : survey path ⟨.identifier, literal, position, children⟩ = .ok s) :
    literal ∈ s.mentions.identifiers := by
  cases surveyed_of_survey h with
  | name => exact Names.mem_union.2 (Or.inl (Names.mem_ofList.2 List.mem_cons_self))
  | assignment hkind => simp at hkind
  | other hkind => exact absurd (by decide) hkind

/-- A node that another one encloses is surveyed with it. -/
theorem survey_of_encloses {path path' : Path} {node node' : Node}
    (h : Encloses path node path' node') :
    ∀ {s : Survey}, node.survey path = .ok s →
      ∃ s', node'.survey path' = .ok s' ∧ s'.mentions.Le s.mentions := by
  induction h with
  | refl => exact fun hs => ⟨_, hs, .refl _⟩
  | child hkind hc _ ih =>
    intro s hs
    obtain ⟨s', hs', hpart⟩ := survey_child hs hkind hc
    obtain ⟨s'', hs'', hle⟩ := ih hs'
    exact ⟨s'', hs'', hle.trans hpart.le⟩

/-- What a function takes along is noted for the function around it. -/
theorem nested_of_survey {literal : String} {position : Position} {children : List Node}
    {s s' : Survey} {a : Analysis} {body : Node} (hat : FunctionAt root path a body s')
    (hnode : root.at? path = some ⟨.funcWord, literal, position, children⟩)
    (h : survey path ⟨.funcWord, literal, position, children⟩ = .ok s) :
    s.mentions.nested = a.captures := by
  obtain ⟨_, _, _, _, _, hat', hparameters, hchannels⟩ := hat.node
  cases hnode.symm.trans hat'
  cases surveyed_of_survey h with
  | function hps hcs hbody =>
    cases hparameters.symm.trans hps
    cases hchannels.symm.trans hcs
    cases hat.survey.symm.trans hbody
    rw [hat.analysis]
    rfl
  | assignment hkind => simp at hkind
  | other hkind => exact absurd (by decide) hkind

/-- The names that a function takes along are those that it needs from outside. -/
theorem mem_captures_of_taken {a : Analysis} {body : Code} {position : Position} {x : String}
    (hx : x ∈ (closure a body position).taken) : x ∈ a.captures := by
  rcases List.mem_append.1 hx with hx | hx
  · exact Names.mem_union.2 (Or.inl (Names.mem_toList.1 hx))
  · exact (Names.mem_sdiff.1 (Names.mem_toList.1 hx)).1

/-- A function in compiled code is one of the tree. -/
theorem governsIn_of_compiledTo {Q : Node → Prop} (hQ : Q root) (hp : Program.ofNode root = .ok p)
    {literal : String} {position : Position} {children : List Node} {a : Analysis} {body : Code}
    (hat : root.at? path = some ⟨.funcWord, literal, position, children⟩)
    (ha : p.analysis? path = some a) (h : ChildTo p.analysis? false path children 2 body) :
    (∃ node s, FunctionAt root path a node s) ∧ a.GovernsIn Q body := by
  obtain ⟨child, hi, hcode⟩ := h
  obtain ⟨-, node, s, hfun⟩ := Program.functionAt_of_analysis? hp ha
  obtain ⟨_, _, _, _, _, hat', _⟩ := hfun.node
  cases hat.symm.trans hat'
  cases hi
  exact ⟨⟨_, s, hfun⟩, root, p, path, child, s, hQ, hp, hfun, hcode⟩

/-- Every function in the code of a node is placed in the program of the tree. -/
theorem placedIn_of_compile {Q : Node → Prop} (hQ : Q root) (hp : Program.ofNode root = .ok p)
    {node : Node} {path : Path} {inLoop : Bool} {code : Code} (hat : root.at? path = some node)
    (hc : node.compile p.analysis? inLoop path = .ok code) : code.Every (Code.PlacedIn Q) := by
  refine (origin_of_compile node hc).mono fun part horigin => ?_
  cases horigin with
  | link h => exact h.placedIn
  | node hencloses hkind h =>
    cases h with
    | function ha h =>
      obtain ⟨-, hgoverns⟩ := governsIn_of_compiledTo hQ hp (at?_of_encloses hencloses hat) ha h
      exact ⟨_, hgoverns, rfl, rfl, rfl, rfl, rfl⟩
    | statements | branches => exact absurd (by decide) hkind
    | tuple htuple => rcases htuple with rfl | rfl <;> exact absurd (by decide) hkind
    | _ => trivial

/-- The code of a node keeps to the survey of the node. -/
theorem noted_of_compile (hp : Program.ofNode root = .ok p) (node : Node) :
    ∀ {path : Path} {inLoop : Bool} {s : Survey} {code : Code}, root.at? path = some node →
      node.survey path = .ok s → node.compile p.analysis? inLoop path = .ok code →
      code.Every (Code.Noted s.mentions) := by
  intro path inLoop s code hat hs hc
  refine (origin_of_compile node hc).mono fun part horigin => ?_
  cases horigin with
  | link h => exact h.noted
  | node hencloses hkind h =>
    obtain ⟨s', hs', hle⟩ := survey_of_encloses hencloses hs
    refine Code.Noted.mono hle ?_
    cases h with
    | name =>
      refine ⟨fun x hx => ?_, nofun, nofun, trivial⟩
      exact List.mem_singleton.1 hx ▸ identifiers_of_survey hs'
    | assign hnames | default hnames | accumulate hnames =>
      exact ⟨nofun, assigned_of_targets hs' (by simp) hnames, nofun, trivial⟩
    | @function _ a body ha h =>
      have hat' := at?_of_encloses hencloses hat
      obtain ⟨⟨node, s'', hfun⟩, hgoverns⟩ :=
        governsIn_of_compiledTo (Q := fun _ => True) trivial hp hat' ha h
      refine ⟨nofun, nofun, fun x hx => ?_, a, hgoverns.governs, rfl, rfl, rfl, rfl, rfl⟩
      rw [nested_of_survey hfun hat' hs']
      exact mem_captures_of_taken hx
    | literal | logical | unary | binary | loop | returnNothing | «return» | «break»
    | «continue» | apply => exact Code.noted_of_no_uses rfl rfl rfl trivial
    | statements | branches => exact absurd (by decide) hkind
    | tuple htuple => rcases htuple with rfl | rfl <;> exact absurd (by decide) hkind
    | declaration => exact Code.noted_of_no_uses rfl rfl rfl trivial

/-- A break or continue leaves the code of a node only if a loop encloses the node. -/
theorem escapes_of_compile (node : Node) :
    ∀ {path : Path} {inLoop : Bool} {code : Code},
      node.compile analysis? inLoop path = .ok code → code.escapes = true → inLoop = true := by
  induction node using Node.induct with
  | h kind literal position children ih =>
    intro path inLoop code hc he
    have hchild : ∀ {index : Nat} {code : Code},
        ChildTo analysis? inLoop path children index code → code.escapes = true →
          inLoop = true := by
      rintro index code ⟨child, hi, hcode⟩ he
      exact ih child (List.mem_of_getElem? hi) hcode he
    have hall : ∀ {codes : List Code},
        (∀ code ∈ codes, ∃ index, ChildTo analysis? inLoop path children index code) →
        ∀ code ∈ codes, code.escapes = true → inLoop = true := by
      intro codes h code hmem
      obtain ⟨index, hcode⟩ := h code hmem
      exact hchild hcode
    have hor : ∀ {a b : Bool}, (a = true → inLoop = true) → (b = true → inLoop = true) →
        (a || b) = true → inLoop = true :=
      fun ha hb h => ((Bool.or_eq_true _ _).mp h).elim ha hb
    have htuple : ∀ {codes : List Code}, (∀ code ∈ codes, code.escapes = true → inLoop = true) →
        (Code.tuple codes).escapes = true → inLoop = true :=
      Code.of_tuple (P := fun code => code.escapes = true → inLoop = true)
        (fun he => absurd he Bool.false_ne_true) fun _ _ => hor
    cases compiledTo_of_compile hc with
    | statements h =>
      exact Code.of_statements (P := fun code => code.escapes = true → inLoop = true)
        (fun he => absurd he Bool.false_ne_true) (fun _ _ => hor) (hall h) he
    | tuple _ h => exact htuple (hall h) he
    | assign _ h | default _ h | accumulate _ h | unary _ h | «return» h => exact hchild h he
    | logical _ hleft hright | binary _ hleft hright => exact hor (hchild hleft) (hchild hright) he
    | branches h =>
      exact Code.of_branches (P := fun code => code.escapes = true → inLoop = true) position
        (fun he => absurd he Bool.false_ne_true)
        (fun _ _ _ hcondition hyes hno => hor hcondition (hor hyes hno)) (hall h) he
    | loop hcondition _ => exact hchild hcondition he
    | «break» hloop | «continue» hloop => exact hloop
    | apply hcallee h => exact hor (hchild hcallee) (htuple (hall h)) he
    | literal | name | returnNothing | declaration | function => exact absurd he Bool.false_ne_true

/-- No break or continue leaves code outside all loops. -/
theorem escapes_eq_false {node : Node} {code : Code}
    (h : node.compile analysis? false path = .ok code) : code.escapes = false :=
  Bool.eq_false_iff.2 fun he => Bool.false_ne_true (escapes_of_compile node h he)

end Node

/-- The code of an analysed program is that of its tree. -/
theorem Program.compile_eq {root : Node} {p : Program} (hp : ofNode root = .ok p) :
    p.compile = root.compile p.analysis? false [] := by
  unfold compile
  rw [root_of_ofNode hp]

end Scripting

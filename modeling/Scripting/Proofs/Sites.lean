import Scripting.Analysis.Program
import Scripting.Proofs.Inversion

/-!
# Proofs: the analysis found at a path belongs to the function there

Analyses are kept beside the tree and looked up by path. The survey of a node makes one entry for
each function below it, and every entry tells the truth about the node at its path.
-/

namespace Scripting

namespace Node

/-- Induction on trees: a node may use the statement for its children. -/
theorem induct {P : Node → Prop}
    (h : ∀ kind literal position children, (∀ child ∈ children, P child) →
      P ⟨kind, literal, position, children⟩) (node : Node) : P node := by
  refine @Node.rec P (fun nodes => ∀ node ∈ nodes, P node) ?_ ?_ ?_ node
  · exact fun kind literal position children ih => h kind literal position children ih
  · exact fun node hn => absurd hn List.not_mem_nil
  · intro first rest hfirst hrest node hn
    rcases List.mem_cons.1 hn with rfl | hn
    · exact hfirst
    · exact hrest node hn

/-- The ways in which a node has a survey. -/
inductive Surveyed (path : Path) : Kind → String → List Node → Survey → Prop
  | function {literal parameters channels body rest ps cs s}
    (hparameters : parameters.nameList = .ok ps) (hchannels : channels.nameList = .ok cs)
    (hbody : body.survey (2 :: path) = .ok s) :
    Surveyed path .funcWord literal (parameters :: channels :: body :: rest)
      (.ofFunction path ps cs s)
  | object {literal object name} (hobject : object.leftmostName = .ok name) :
    Surveyed path .methodCall literal [object] (.ofIdentifier name)
  | method {literal object method arguments name s} (hobject : object.leftmostName = .ok name)
    (h : surveys path 2 arguments = .ok s) :
    Surveyed path .methodCall literal (object :: method :: arguments) (.ofIdentifier name ++ s)
  | assignment {kind literal target rest names s}
    (hkind : kind = .assign ∨ kind = .default ∨ kind = .accumulate)
    (hnames : target.listed.mapM leftmostName = .ok names)
    (h : surveys path 0 (target :: rest) = .ok s) :
    Surveyed path kind literal (target :: rest) (.ofAssigned names ++ s)
  | declaration {literal children names s} (hnames : children.mapM declaredName = .ok names)
    (h : surveys path 0 children = .ok s) :
    Surveyed path .externWord literal children (.ofExterns names ++ s)
  | name {x children s} (h : surveys path 0 children = .ok s) :
    Surveyed path .identifier x children (.ofIdentifier x ++ s)
  | nothing {literal} : Surveyed path .period literal [] .empty
  | field {literal object rest s} (h : object.survey (0 :: path) = .ok s) :
    Surveyed path .period literal (object :: rest) s
  | other {kind literal children s}
    (hkind : kind ∉ [Kind.funcWord, .methodCall, .assign, .default, .accumulate, .externWord,
      .identifier, .period]) (h : surveys path 0 children = .ok s) :
    Surveyed path kind literal children s

/-- Every way to have a survey is among the cases. -/
theorem surveyed_of_survey {path : Path} {kind : Kind} {literal : String} {position : Position}
    {children : List Node} {s : Survey}
    (h : survey path ⟨kind, literal, position, children⟩ = .ok s) :
    Surveyed path kind literal children s := by
  unfold survey at h
  cases kind with
  | funcWord =>
    dsimp only at h
    split at h
    · obtain ⟨ps, hps, h⟩ := bind_eq_ok_iff.1 h
      obtain ⟨cs, hcs, h⟩ := bind_eq_ok_iff.1 h
      obtain ⟨b, hb, h⟩ := bind_eq_ok_iff.1 h
      cases h
      exact .function hps hcs hb
    · cases h
  | methodCall =>
    dsimp only at h
    split at h
    · cases h
    · obtain ⟨name, hname, h⟩ := bind_eq_ok_iff.1 h
      cases h
      exact .object hname
    · obtain ⟨name, hname, h⟩ := bind_eq_ok_iff.1 h
      obtain ⟨b, hb, h⟩ := bind_eq_ok_iff.1 h
      cases h
      exact .method hname hb
  | assign | default | accumulate =>
    dsimp only at h
    split at h
    · cases h
    · obtain ⟨names, hnames, h⟩ := bind_eq_ok_iff.1 h
      obtain ⟨b, hb, h⟩ := bind_eq_ok_iff.1 h
      cases h
      exact .assignment (by decide) hnames hb
  | externWord =>
    obtain ⟨names, hnames, h⟩ := bind_eq_ok_iff.1 h
    obtain ⟨b, hb, h⟩ := bind_eq_ok_iff.1 h
    cases h
    exact .declaration hnames hb
  | identifier =>
    obtain ⟨b, hb, h⟩ := bind_eq_ok_iff.1 h
    cases h
    exact .name hb
  | period =>
    dsimp only at h
    split at h
    · cases h
      exact .nothing
    · exact .field h
  | _ => exact .other (by decide) h

/-- The node at a path below a node. -/
def at? (root : Node) : Path → Option Node
  | [] => some root
  | index :: path => (root.at? path).bind fun node => node.children[index]?

theorem at?_child {root node child : Node} {path : Path} {index : Nat}
    (h : root.at? path = some node) (hc : node.children[index]? = some child) :
    root.at? (index :: path) = some child := by
  simp [at?, h, hc]

/-- The function at a path of a tree has the analysis `a`, made from its lists and the survey of
its body. -/
structure FunctionAt (root : Node) (path : Path) (a : Analysis) (body : Node) (s : Survey) :
    Prop where
  node : ∃ literal position parameters channels rest,
    root.at? path = some ⟨.funcWord, literal, position, parameters :: channels :: body :: rest⟩ ∧
    parameters.nameList = .ok a.parameters ∧ channels.nameList = .ok a.channels
  survey : body.survey (2 :: path) = .ok s
  analysis : a = .ofMentions a.parameters a.channels s.mentions

end Node

namespace Survey

@[simp] theorem sites_append (a b : Survey) : (a ++ b).sites = a.sites ++ b.sites := rfl

@[simp] theorem sites_ofIdentifier (name : String) : (ofIdentifier name).sites = [] := rfl

@[simp] theorem sites_ofAssigned (names : List String) : (ofAssigned names).sites = [] := rfl

@[simp] theorem sites_ofExterns (names : List String) : (ofExterns names).sites = [] := rfl

end Survey

open Node

/-- The entry of a function tells the truth about the node at its path. -/
def FunctionEntry.Truthful (root : Node) (e : FunctionEntry) : Prop :=
  ∃ body s, FunctionAt root e.path e.analysis body s

namespace FunctionSite

/-- The entries of a function, and of all functions inside it, tell the truth. -/
def Truthful (root : Node) (site : FunctionSite) : Prop :=
  ∀ outer parent index, ∀ e ∈ entries outer parent index site, e.Truthful root

variable {root : Node}

theorem truthful_of_mem_entriesAll {sites : List FunctionSite}
    (h : ∀ site ∈ sites, site.Truthful root) {outer : List Analysis} {parent : Option Nat}
    {index : Nat} {e : FunctionEntry} (he : e ∈ entriesAll outer parent index sites) :
    e.Truthful root := by
  induction sites generalizing index with
  | nil => simp [entriesAll] at he
  | cons site sites ih =>
    rw [entriesAll] at he
    rcases List.mem_append.1 he with he | he
    · exact h site List.mem_cons_self _ _ _ e he
    · exact ih (fun site hs => h site (List.mem_cons_of_mem _ hs)) he

/-- A function tells the truth if it does itself and those inside it do. -/
theorem Truthful.mk {path : Path} {a : Analysis} {inner : List FunctionSite} {body : Node}
    {s : Survey} (h : FunctionAt root path a body s) (hi : ∀ site ∈ inner, site.Truthful root) :
    Truthful root ⟨path, a, inner⟩ := by
  intro outer parent index e he
  rw [entries] at he
  rcases List.mem_cons.1 he with rfl | he
  · exact ⟨body, s, h⟩
  · exact truthful_of_mem_entriesAll hi he

end FunctionSite

namespace Node

variable {root : Node} {path : Path}

theorem surveys_cons {first : Node} {rest : List Node} {index : Nat} {s : Survey}
    (h : surveys path index (first :: rest) = .ok s) :
    ∃ a b, first.survey (index :: path) = .ok a ∧ surveys path (index + 1) rest = .ok b ∧
      s = a ++ b := by
  rw [surveys] at h
  obtain ⟨a, ha, h⟩ := bind_eq_ok_iff.1 h
  obtain ⟨b, hb, h⟩ := bind_eq_ok_iff.1 h
  exact ⟨a, b, ha, hb, (Except.ok.inj h).symm⟩

/-- The functions below several children of a node tell the truth if those below each child do. -/
theorem truthful_of_surveys {nodes : List Node} {index : Nat} {s : Survey}
    (h : surveys path index nodes = .ok s)
    (ih : ∀ (i : Nat) (node : Node) (s' : Survey), nodes[i]? = some node →
      node.survey ((index + i) :: path) = .ok s' → ∀ site ∈ s'.sites, site.Truthful root) :
    ∀ site ∈ s.sites, site.Truthful root := by
  induction nodes generalizing index s with
  | nil =>
    rw [surveys] at h
    cases h
    exact fun site hs => absurd hs List.not_mem_nil
  | cons first rest ihr =>
    obtain ⟨a, b, ha, hb, rfl⟩ := surveys_cons h
    have hfirst := ih 0 first a rfl ha
    have hrest := ihr hb fun i node s' hn hs =>
      ih (i + 1) node s' hn (by rw [← Nat.add_assoc, Nat.add_right_comm]; exact hs)
    intro site hs
    exact (List.mem_append.1 hs).elim (hfirst site) (hrest site)

/-- Every function that the survey of a node finds tells the truth about the tree. -/
theorem truthful_of_survey (node : Node) : ∀ {path : Path} {s : Survey},
    root.at? path = some node → node.survey path = .ok s →
      ∀ site ∈ s.sites, site.Truthful root := by
  induction node using Node.induct with
  | h kind literal position children ih =>
    intro path s hat hs
    -- All children that are surveyed are surveyed in a row, from the first or from the third.
    have hrow : ∀ {index : Nat} {nodes : List Node} {s' : Survey},
        (∀ i node, nodes[i]? = some node → children[index + i]? = some node) →
        surveys path index nodes = .ok s' → ∀ site ∈ s'.sites, site.Truthful root := by
      intro index nodes s' hnodes hs'
      refine truthful_of_surveys hs' fun i node s'' hn hsn => ?_
      have hc := hnodes i node hn
      exact ih node (List.mem_of_getElem? hc) (at?_child hat hc) hsn
    have hall : ∀ {s' : Survey}, surveys path 0 children = .ok s' →
        ∀ site ∈ s'.sites, site.Truthful root :=
      fun hs' => hrow (fun i node hn => by rw [Nat.zero_add]; exact hn) hs'
    cases surveyed_of_survey hs with
    | @function _ parameters channels body rest ps cs s hps hcs hbody =>
      have hinner := ih body (by simp) (at?_child hat (by rfl)) hbody
      intro site hsite
      rw [List.mem_singleton.1 hsite]
      exact .mk ⟨⟨literal, position, parameters, channels, rest, hat, hps, hcs⟩, hbody, rfl⟩ hinner
    | object => simp
    | method _ h => simpa using hrow (fun i node hn => by rw [Nat.add_comm]; exact hn) h
    | assignment _ _ h | declaration _ h | name h => simpa using hall h
    | nothing => simp [Survey.empty]
    | @field _ object _ _ h => exact ih object (by simp) (at?_child hat (by rfl)) h
    | other _ h => exact hall h

end Node

namespace Program

theorem root_of_ofNode {root : Node} {p : Program} (hp : ofNode root = .ok p) : p.root = root := by
  obtain ⟨s, -, h⟩ := bind_eq_ok_iff.1 hp
  cases h
  rfl

/-- The entries of a program tell the truth about its tree. -/
theorem truthful_of_mem {root : Node} {p : Program} (hp : ofNode root = .ok p) {e : FunctionEntry}
    (he : e ∈ p.functions) : e.Truthful root := by
  obtain ⟨s, hs, h⟩ := bind_eq_ok_iff.1 hp
  cases h
  exact FunctionSite.truthful_of_mem_entriesAll (truthful_of_survey root rfl hs) he

/-- The analysis that a program has for a path is that of the function there. -/
theorem functionAt_of_analysis? {root : Node} {p : Program} (hp : ofNode root = .ok p)
    {path : Path} {a : Analysis} (ha : p.analysis? path = some a) :
    p.root = root ∧ ∃ body s, Node.FunctionAt root path a body s := by
  obtain ⟨e, he, rfl⟩ := Option.map_eq_some_iff.1 ha
  have hpath : e.path = path := by simpa using List.find?_some he
  obtain ⟨body, s', h⟩ := truthful_of_mem hp (List.mem_of_find?_eq_some he)
  exact ⟨root_of_ofNode hp, body, s', hpath ▸ h⟩

end Program

end Scripting

import Scripting.Proofs.Constructs
import Scripting.Proofs.Walks

/-!
# Proofs: why trees are refused

The compiler goes from a node to some of its children and looks the analyses of functions up on the
way. If it refuses a tree, then for what one of the nodes is that it has gone to, and its answer
depends on no other analyses than those of the functions among them. The analysis, too, misses a
child only where one of the nodes has too few.
-/

namespace Scripting

namespace Kind

variable {kind : Kind}

/-- Does the compiler go from a node of the kind to its child of the number? -/
def CompilesChild (kind : Kind) (index : Nat) : Prop :=
  match kind with
  | .statements | .comma | .leftParen | .ifWord | .application => True
  | .assign | .default | .accumulate => index = 1
  | .and | .or | .plus | .minus | .times | .divide | .modulo | .equal | .notEqual | .less
  | .lessEqual | .greater | .greaterEqual | .whileWord => index ≤ 1
  | .not | .returnWord => index = 0
  | .funcWord => index = 2
  | _ => False

/-- Is the child no list of a function? -/
def BodyChild (kind : Kind) (index : Nat) : Prop :=
  kind = .funcWord → index = 2

theorem SurveysChild.bodyChild {index : Nat} (h : kind.SurveysChild index) :
    kind.BodyChild index := by
  rintro rfl
  exact h

/-- The compiler goes nowhere that the survey does not go. -/
theorem CompilesChild.surveysChild {index : Nat} (h : kind.CompilesChild index) :
    kind.SurveysChild index := by
  cases kind with
  | funcWord => exact h
  | methodCall | period => exact h.elim
  | _ => trivial

/-- Does a node of the kind with so many children have all that is asked for? -/
def Fits (kind : Kind) (count : Nat) : Prop :=
  match kind with
  | .assign | .default | .accumulate | .ifWord | .whileWord => 2 ≤ count
  | .and | .or | .plus | .times | .divide | .modulo | .equal | .notEqual | .less | .lessEqual
  | .greater | .greaterEqual => count = 2
  | .minus => count = 1 ∨ count = 2
  | .not => count = 1
  | .funcWord => 3 ≤ count
  | .application | .methodCall | .period | .leftBracket => 1 ≤ count
  | _ => True

end Kind

/-- The fault is that a node lacks an analysis or a child, or has a child too many. -/
def CompileFault.Lacks : CompileFault → Prop
  | missingAnalysis | malformed _ => True
  | unknownOperator _ _ | invalidLiteral _ _ _ | invalidTarget _ | outsideLoop _ => False

namespace Node

/-! ## Why a node has no code -/

/-- The reasons for which a node has no code: a child has none, a function has no analysis, there
are too few or too many children, or what the node says cannot be compiled. -/
inductive Refused (analysis? : Path → Option Analysis) (path : Path) (position : Position)
    (children : List Node) (kind : Kind) : CompileError → Prop
  | child {inLoop index child e} (hstep : kind.CompilesChild index)
    (hc : children[index]? = some child)
    (h : child.compile analysis? inLoop (index :: path) = .error e) :
    Refused analysis? path position children kind e
  | missing (hkind : kind = .funcWord) (ha : analysis? path = none) :
    Refused analysis? path position children kind ⟨.missingAnalysis, position⟩
  | malformed (h : ¬ kind.Fits children.length) :
    Refused analysis? path position children kind ⟨.malformed kind, position⟩
  | other {fault} (h : ¬ CompileFault.Lacks fault) :
    Refused analysis? path position children kind ⟨fault, position⟩

variable {analysis? analysis?' : Path → Option Analysis} {inLoop : Bool} {path : Path} {kind : Kind}
  {literal : String} {position : Position} {children : List Node} {e : CompileError}

theorem error_of_compileAll {nodes : List Node} {index : Nat}
    (hnodes : ∀ i, nodes[i]? = children[index + i]?)
    (h : compileAll analysis? inLoop path index nodes = .error e) :
    ∃ (i : Nat) (child : Node), children[i]? = some child ∧
      child.compile analysis? inLoop (i :: path) = .error e := by
  induction nodes generalizing index with
  | nil =>
    rw [compileAll] at h
    cases h
  | cons first rest ih =>
    rw [compileAll] at h
    obtain h | ⟨code, -, h⟩ := bind_eq_error_iff.1 h
    · exact ⟨index, first, (hnodes 0).symm, h⟩
    · obtain h | ⟨codes, -, h⟩ := bind_eq_error_iff.1 h
      · refine ih (fun i => ?_) h
        rw [Nat.add_right_comm, Nat.add_assoc]
        exact hnodes (i + 1)
      · cases h

theorem refused_of_number (h : number kind literal position = .error e) :
    Refused analysis? path position children kind e := by
  unfold number at h
  split at h
  all_goals
    split at h
    · cases h
    · cases h
      exact .other id

theorem refused_of_targets (h : targets kind position children = .error e) :
    Refused analysis? path position children kind e := by
  have hall : ∀ {nodes : List Node}, (nodes.mapM fun node => if node.kind = .identifier then
      Except.ok node.literal else .error (⟨.invalidTarget kind, position⟩ : CompileError)) =
        .error e → e = ⟨.invalidTarget kind, position⟩ := by
    intro nodes h
    induction nodes with
    | nil => cases h
    | cons first rest ih =>
      rw [List.mapM_cons] at h
      obtain h | ⟨name, -, h⟩ := bind_eq_error_iff.1 h
      · split at h
        · cases h
        · exact (Except.error.inj h).symm
      · obtain h | ⟨names, -, h⟩ := bind_eq_error_iff.1 h
        · exact ih h
        · cases h
  unfold targets at h
  split at h
  · cases h
    exact .other id
  · cases hall h
    exact .other id

/-- A node that takes one child and then is done is refused for that child only. -/
theorem refused_of_map {make : Code → Code} {index : Nat} {child : Node}
    (hstep : kind.CompilesChild index) (hc : children[index]? = some child)
    (h : (do return make (← compile analysis? inLoop (index :: path) child)) = Except.error e) :
    Refused analysis? path position children kind e := by
  obtain h | ⟨code, -, h⟩ := bind_eq_error_iff.1 h
  · exact .child hstep hc h
  · cases h

theorem refused_of_pair {make : Code → Code → Code} {inLoop' : Bool} {left right : Node}
    {rest : List Node} (hstep : kind.CompilesChild 0 ∧ kind.CompilesChild 1)
    (h : (do
      let first ← compile analysis? inLoop (0 :: path) left
      return make first (← compile analysis? inLoop' (1 :: path) right)) = Except.error e) :
    Refused analysis? path position (left :: right :: rest) kind e := by
  obtain h | ⟨first, -, h⟩ := bind_eq_error_iff.1 h
  · exact .child hstep.1 rfl h
  · obtain h | ⟨second, -, h⟩ := bind_eq_error_iff.1 h
    · exact .child hstep.2 rfl h
    · cases h

/-- Every node without code has one of these reasons. -/
theorem refused_of_compile
    (h : compile analysis? inLoop path ⟨kind, literal, position, children⟩ = .error e) :
    Refused analysis? path position children kind e := by
  have hall : (∀ index, kind.CompilesChild index) →
      compileAll analysis? inLoop path 0 children = .error e →
        Refused analysis? path position children kind e := by
    intro hstep h
    obtain ⟨i, child, hc, h⟩ := error_of_compileAll (fun i => by rw [Nat.zero_add]) h
    exact .child (hstep i) hc h
  unfold compile at h
  cases kind with
  | int | float => exact refused_of_number h
  | string | trueWord | falseWord | nilWord | identifier | externWord => cases h
  | statements | comma | leftParen =>
    obtain h | ⟨codes, -, h⟩ := bind_eq_error_iff.1 h
    · exact hall (fun _ => trivial) h
    · cases h
  | assign | default =>
    obtain h | ⟨names, -, h⟩ := bind_eq_error_iff.1 h
    · exact refused_of_targets h
    · rcases children with _ | ⟨target, _ | ⟨value, rest⟩⟩
      · cases h
        exact .malformed (by simp [Kind.Fits])
      · cases h
        exact .malformed (by simp [Kind.Fits])
      · exact refused_of_map rfl rfl h
  | accumulate =>
    dsimp only at h
    split at h
    · split at h
      · exact refused_of_map rfl rfl h
      · cases h
        exact .malformed (by simp [Kind.Fits])
    · cases h
      exact .other id
  | and | or =>
    rcases children with _ | ⟨left, _ | ⟨right, _ | ⟨third, rest⟩⟩⟩
    case cons.cons.nil => exact refused_of_pair ⟨Nat.zero_le 1, Nat.le_refl 1⟩ h
    all_goals
      cases h
      exact .malformed (by simp [Kind.Fits])
  | not =>
    rcases children with _ | ⟨operand, _ | ⟨second, rest⟩⟩
    case cons.nil => exact refused_of_map rfl rfl h
    all_goals
      cases h
      exact .malformed (by simp [Kind.Fits])
  | ifWord =>
    obtain h | ⟨codes, hcodes, h⟩ := bind_eq_error_iff.1 h
    · exact hall (fun _ => trivial) h
    · have hlength := length_of_compileAll hcodes
      rcases codes with _ | ⟨condition, _ | ⟨block, rest⟩⟩
      · cases h
        exact .malformed (by simp [Kind.Fits, ← hlength])
      · cases h
        exact .malformed (by simp [Kind.Fits, ← hlength])
      · cases h
  | whileWord =>
    rcases children with _ | ⟨condition, _ | ⟨body, rest⟩⟩
    case cons.cons => exact refused_of_pair ⟨Nat.zero_le 1, Nat.le_refl 1⟩ h
    all_goals
      cases h
      exact .malformed (by simp [Kind.Fits])
  | returnWord =>
    dsimp only at h
    split at h
    · cases h
    · exact refused_of_map rfl rfl h
  | breakWord | continueWord =>
    dsimp only at h
    split at h
    · cases h
    · cases h
      exact .other id
  | funcWord =>
    dsimp only at h
    split at h
    · next ha =>
      cases h
      exact .missing rfl ha
    · rcases children with _ | ⟨parameters, _ | ⟨channels, _ | ⟨body, rest⟩⟩⟩
      case cons.cons.cons => exact refused_of_map rfl rfl h
      all_goals
        cases h
        exact .malformed (by simp [Kind.Fits])
  | application =>
    rcases children with _ | ⟨callee, arguments⟩
    · cases h
      exact .malformed (by simp [Kind.Fits])
    · obtain h | ⟨code, -, h⟩ := bind_eq_error_iff.1 h
      · exact .child trivial rfl h
      · obtain h | ⟨codes, -, h⟩ := bind_eq_error_iff.1 h
        · have hnodes : ∀ i, arguments[i]? = (callee :: arguments)[1 + i]? := fun i => by
            rw [Nat.add_comm]
            rfl
          obtain ⟨i, child, hc, h⟩ := error_of_compileAll hnodes h
          exact .child trivial hc h
        · cases h
  | minus =>
    rcases children with _ | ⟨left, _ | ⟨right, _ | ⟨third, rest⟩⟩⟩
    case cons.nil => exact refused_of_map (Nat.zero_le 1) rfl h
    case cons.cons.nil => exact refused_of_pair ⟨Nat.zero_le 1, Nat.le_refl 1⟩ h
    all_goals
      cases h
      exact .malformed (by simp [Kind.Fits])
  | plus | times | divide | modulo | equal | notEqual | less | lessEqual | greater
  | greaterEqual =>
    rcases children with _ | ⟨left, _ | ⟨right, _ | ⟨third, rest⟩⟩⟩
    case cons.cons.nil => exact refused_of_pair ⟨Nat.zero_le 1, Nat.le_refl 1⟩ h
    all_goals
      cases h
      exact .malformed (by simp [Kind.Fits])
  | illegal | finish | period | semicolon | rightParen | leftBracket | rightBracket | leftBrace
  | rightBrace | elseWord | methodCall =>
    cases h
    exact .other id

end Node

/-- What the error says holds of the node at the path. -/
structure CompileError.TrueOf (e : CompileError) (analysis? : Path → Option Analysis) (path : Path)
    (node : Node) : Prop where
  position : e.position = node.position
  missing : e.fault = .missingAnalysis → node.kind = .funcWord ∧ analysis? path = none
  malformed : ∀ kind, e.fault = .malformed kind →
    node.kind = kind ∧ ¬ kind.Fits node.children.length

namespace Node

variable {analysis? analysis?' : Path → Option Analysis} {e : CompileError}

/-- If a tree has no code, then because of a node that the compiler goes to. -/
theorem trueOf_of_compile (node : Node) : ∀ {path : Path} {inLoop : Bool},
    node.compile analysis? inLoop path = .error e → ∃ rel below,
      node.Reaches Kind.CompilesChild rel below ∧ e.TrueOf analysis? (rel ++ path) below := by
  induction node using Node.induct with
  | h kind literal position children ih =>
    intro path inLoop h
    cases refused_of_compile h with
    | @child _ index child _ hstep hc h =>
      obtain ⟨rel, below, hreaches, htrue⟩ := ih child (List.mem_of_getElem? hc) h
      refine ⟨rel ++ [index], below, .of_child hstep hc hreaches, ?_⟩
      rwa [List.append_assoc]
    | missing hkind ha => exact ⟨[], _, .root, rfl, fun _ => ⟨hkind, ha⟩, nofun⟩
    | malformed hfits =>
      refine ⟨[], _, .root, rfl, nofun, ?_⟩
      rintro _ ⟨⟩
      exact ⟨rfl, hfits⟩
    | other hother =>
      refine ⟨[], _, .root, rfl, ?_, ?_⟩
      · rintro rfl
        exact absurd trivial hother
      · rintro kind rfl
        exact absurd trivial hother

/-! ## Why a tree has no analysis -/

end Node

/-- The fault is that a node lacks a child. -/
def AnalysisFault.LacksChild : AnalysisFault → Prop
  | incompleteFunction | missingObject | missingTarget | missingIdentifier => True
  | externNotIdentifier | notIdentifier _ => False

namespace Node

/-- The node, or one below it that is in no list of a function, has too few children or too many. -/
def Unfit (node : Node) : Prop :=
  ∃ rel below, node.Reaches Kind.BodyChild rel below ∧ ¬ below.kind.Fits below.children.length

section

variable {kind : Kind} {literal : String} {position : Position} {children : List Node} {node : Node}
  {path : Path} {e : AnalysisError}

theorem unfit_of_count (h : ¬ kind.Fits children.length) :
    Unfit ⟨kind, literal, position, children⟩ :=
  ⟨[], _, .root, h⟩

theorem Unfit.of_child {child : Node} {index : Nat} (h : child.Unfit)
    (hstep : node.kind.BodyChild index) (hc : node.children[index]? = some child) :
    node.Unfit := by
  obtain ⟨rel, below, hreaches, hfits⟩ := h
  exact ⟨rel ++ [index], below, .of_child hstep hc hreaches, hfits⟩

theorem Unfit.of_first {first : Node} {rest : List Node} (h : first.Unfit)
    (hkind : kind ≠ .funcWord) : Unfit ⟨kind, literal, position, first :: rest⟩ :=
  have hc : (first :: rest)[0]? = some first := rfl
  h.of_child (fun hfunc => absurd hfunc hkind) hc

/-- A computation over a row fails at a member. -/
theorem error_of_mapM {ε α β : Type} {f : α → Except ε β} {e : ε} : ∀ {as : List α},
    as.mapM f = .error e → ∃ a ∈ as, f a = .error e
  | [], h => nomatch h
  | a :: as, h => by
    rw [List.mapM_cons] at h
    obtain h | ⟨b, -, h⟩ := bind_eq_error_iff.1 h
    · exact ⟨a, List.mem_cons_self, h⟩
    · obtain h | ⟨bs, -, h⟩ := bind_eq_error_iff.1 h
      · obtain ⟨a', ha', h⟩ := error_of_mapM h
        exact ⟨a', List.mem_cons_of_mem _ ha', h⟩
      · cases h

theorem error_of_surveys {nodes : List Node} {index : Nat}
    (hnodes : ∀ i, nodes[i]? = children[index + i]?) (h : surveys path index nodes = .error e) :
    ∃ (i : Nat) (child : Node), index ≤ i ∧ children[i]? = some child ∧
      child.survey (i :: path) = .error e := by
  induction nodes generalizing index with
  | nil =>
    rw [surveys] at h
    cases h
  | cons first rest ih =>
    rw [surveys] at h
    obtain h | ⟨a, -, h⟩ := bind_eq_error_iff.1 h
    · exact ⟨index, first, Nat.le_refl index, (hnodes 0).symm, h⟩
    · obtain h | ⟨b, -, h⟩ := bind_eq_error_iff.1 h
      · obtain ⟨i, child, hi, hc, h⟩ := ih (fun i => by
          rw [Nat.add_right_comm, Nat.add_assoc]
          exact hnodes (i + 1)) h
        exact ⟨i, child, Nat.le_of_succ_le hi, hc, h⟩
      · cases h

/-- A list of parameters or channels is refused for an item that is no name. -/
theorem not_lacksChild_of_nameList (node : Node) : ∀ e : AnalysisError,
    node.nameList = .error e → ¬ e.fault.LacksChild := by
  refine @Node.rec (fun node => ∀ e : AnalysisError, node.nameList = .error e →
    ¬ e.fault.LacksChild) (fun nodes => ∀ e : AnalysisError, nameLists nodes = .error e →
      ¬ e.fault.LacksChild) ?_ ?_ ?_ node
  · intro kind literal position children ih e h
    rw [nameList.eq_def] at h
    cases kind with
    | identifier => cases h
    | comma | leftBracket | leftParen => exact ih e h
    | _ =>
      cases h
      exact id
  · intro e h
    rw [nameLists] at h
    cases h
  · intro first rest hfirst hrest e h
    rw [nameLists] at h
    obtain h | ⟨a, -, h⟩ := bind_eq_error_iff.1 h
    · exact hfirst e h
    · obtain h | ⟨b, -, h⟩ := bind_eq_error_iff.1 h
      · exact hrest e h
      · cases h

/-- A leftmost name is missing where an access has no object. -/
theorem unfit_of_leftmostName (node : Node) (h : node.leftmostName = .error e)
    (hlacks : e.fault.LacksChild) : node.Unfit := by
  induction node using Node.induct with
  | h kind literal position children ih =>
    rw [leftmostName.eq_def] at h
    cases kind with
    | identifier => cases h
    | period | leftBracket =>
      cases children with
      | nil => exact unfit_of_count (by simp [Kind.Fits])
      | cons first rest => exact (ih first List.mem_cons_self h).of_first (by decide)
    | _ =>
      cases h
      exact hlacks.elim

/-- A target is named by the left side of an assignment or by a member of it. -/
theorem unfit_of_targets (h : node.listed.mapM leftmostName = .error e)
    (hlacks : e.fault.LacksChild) : node.Unfit := by
  obtain ⟨target, htarget, h⟩ := error_of_mapM h
  have hunfit := unfit_of_leftmostName target h hlacks
  obtain ⟨hlist, hlisted⟩ | ⟨-, -, hlisted⟩ := node.listed_cases
  · obtain ⟨index, hc⟩ := List.getElem?_of_mem (hlisted ▸ htarget)
    refine hunfit.of_child (fun hfunc => ?_) hc
    rw [hfunc] at hlist
    exact absurd hlist (by decide)
  · rw [hlisted] at htarget
    exact List.mem_singleton.1 htarget ▸ hunfit

/-- If the analysis misses a child, a node has too few. -/
theorem unfit_of_survey (node : Node) : ∀ {path : Path}, node.survey path = .error e →
    e.fault.LacksChild → node.Unfit := by
  induction node using Node.induct with
  | h kind literal position children ih =>
    intro path h hlacks
    have hchild : ∀ (index : Nat) {child : Node}, kind.SurveysChild index →
        children[index]? = some child → Node.survey (index :: path) child = .error e →
          Unfit ⟨kind, literal, position, children⟩ := fun index child hstep hc h =>
      (ih _ (List.mem_of_getElem? hc) h hlacks).of_child hstep.bodyChild hc
    have hrow : ∀ {index : Nat} {nodes : List Node}, (∀ i, nodes[i]? = children[index + i]?) →
        (∀ i, index ≤ i → kind.SurveysChild i) → surveys path index nodes = .error e →
          Unfit ⟨kind, literal, position, children⟩ := by
      intro index nodes hnodes hstep h
      obtain ⟨i, child, hi, hc, h⟩ := error_of_surveys hnodes h
      exact hchild i (hstep i hi) hc h
    have hall : (∀ i, kind.SurveysChild i) → surveys path 0 children = .error e →
        Unfit ⟨kind, literal, position, children⟩ := fun hstep =>
      hrow (fun i => by rw [Nat.zero_add]) fun i _ => hstep i
    rw [survey.eq_def] at h
    cases kind with
    | funcWord =>
      rcases children with _ | ⟨parameters, _ | ⟨channels, _ | ⟨body, rest⟩⟩⟩
      case cons.cons.cons =>
        obtain h | ⟨ps, -, h⟩ := bind_eq_error_iff.1 h
        · exact absurd hlacks (not_lacksChild_of_nameList _ _ h)
        obtain h | ⟨cs, -, h⟩ := bind_eq_error_iff.1 h
        · exact absurd hlacks (not_lacksChild_of_nameList _ _ h)
        obtain h | ⟨s, -, h⟩ := bind_eq_error_iff.1 h
        · exact hchild 2 rfl rfl h
        · cases h
      all_goals exact unfit_of_count (by simp [Kind.Fits])
    | methodCall =>
      rcases children with _ | ⟨object, _ | ⟨method, arguments⟩⟩
      · exact unfit_of_count (by simp [Kind.Fits])
      · obtain h | ⟨name, -, h⟩ := bind_eq_error_iff.1 h
        · exact (unfit_of_leftmostName object h hlacks).of_first (by decide)
        · cases h
      · obtain h | ⟨name, -, h⟩ := bind_eq_error_iff.1 h
        · exact (unfit_of_leftmostName object h hlacks).of_first (by decide)
        obtain h | ⟨s, -, h⟩ := bind_eq_error_iff.1 h
        · exact hrow (fun i => by rw [Nat.add_comm]; rfl) (fun i hi => hi) h
        · cases h
    | assign | default | accumulate =>
      cases children with
      | nil => exact unfit_of_count (by simp [Kind.Fits])
      | cons target rest =>
        obtain h | ⟨names, -, h⟩ := bind_eq_error_iff.1 h
        · exact (unfit_of_targets h hlacks).of_first (by decide)
        obtain h | ⟨s, -, h⟩ := bind_eq_error_iff.1 h
        · exact hall (fun _ => trivial) h
        · cases h
    | externWord =>
      obtain h | ⟨names, -, h⟩ := bind_eq_error_iff.1 h
      · obtain ⟨child, -, h⟩ := error_of_mapM h
        unfold declaredName at h
        split at h
        · cases h
        · cases h
          exact hlacks.elim
      obtain h | ⟨s, -, h⟩ := bind_eq_error_iff.1 h
      · exact hall (fun _ => trivial) h
      · cases h
    | identifier =>
      obtain h | ⟨s, -, h⟩ := bind_eq_error_iff.1 h
      · exact hall (fun _ => trivial) h
      · cases h
    | period =>
      cases children with
      | nil => cases h
      | cons object rest => exact hchild 0 rfl rfl h
    | _ => exact hall (fun _ => trivial) h

end

/-! ## Which analyses count -/

/-- The two tables agree on the functions that the compiler goes to. -/
def AgreeOn (analysis? analysis?' : Path → Option Analysis) (path : Path) (node : Node) : Prop :=
  ∀ rel below, node.Reaches Kind.CompilesChild rel below → below.kind = .funcWord →
    analysis? (rel ++ path) = analysis?' (rel ++ path)

theorem AgreeOn.child {path : Path} {node child : Node} {index : Nat}
    (h : AgreeOn analysis? analysis?' path node) (hstep : node.kind.CompilesChild index)
    (hc : node.children[index]? = some child) :
    AgreeOn analysis? analysis?' (index :: path) child := by
  intro rel below hreaches hkind
  have := h (rel ++ [index]) below (.of_child hstep hc hreaches) hkind
  rwa [List.append_assoc] at this

theorem compileAll_congr {path : Path} {inLoop : Bool} {nodes : List Node} : ∀ {index : Nat},
    (∀ (i : Nat) (child : Node), nodes[i]? = some child →
      child.compile analysis? inLoop ((index + i) :: path) =
        child.compile analysis?' inLoop ((index + i) :: path)) →
    compileAll analysis? inLoop path index nodes =
      compileAll analysis?' inLoop path index nodes := by
  induction nodes with
  | nil =>
    intro index _
    rw [compileAll, compileAll]
  | cons first rest ih =>
    intro index h
    rw [compileAll, compileAll, ← Nat.add_zero index, h 0 first rfl]
    rw [ih fun i child hc => ?_]
    rw [Nat.add_zero, Nat.add_right_comm]
    exact h (i + 1) child hc

/-- The code of a node depends on the analyses of the functions that the compiler goes to. -/
theorem compile_congr (node : Node) : ∀ {path : Path} {inLoop : Bool},
    AgreeOn analysis? analysis?' path node →
      node.compile analysis? inLoop path = node.compile analysis?' inLoop path := by
  induction node using Node.induct with
  | h kind literal position children ih =>
    intro path inLoop h
    have hchild : ∀ {index : Nat} {child : Node} (inLoop : Bool), kind.CompilesChild index →
        children[index]? = some child → child.compile analysis? inLoop (index :: path) =
          child.compile analysis?' inLoop (index :: path) :=
      fun inLoop hstep hc => ih _ (List.mem_of_getElem? hc) (h.child hstep hc)
    have hall : (∀ index, kind.CompilesChild index) →
        compileAll analysis? inLoop path 0 children =
          compileAll analysis?' inLoop path 0 children :=
      fun hstep => compileAll_congr fun i child hc => by
        rw [Nat.zero_add]
        exact hchild inLoop (hstep i) hc
    cases kind with
    | statements => rw [compile_statements, compile_statements, hall fun _ => trivial]
    | comma | leftParen =>
      rw [compile_tuple (by decide), compile_tuple (by decide), hall fun _ => trivial]
    | ifWord =>
      rw [compile.eq_def, compile.eq_def]
      dsimp only
      rw [hall fun _ => trivial]
    | assign | default =>
      rcases children with _ | ⟨target, _ | ⟨value, rest⟩⟩
      · rfl
      · rfl
      · rw [compile.eq_def, compile.eq_def]
        dsimp only
        rw [hchild inLoop rfl rfl]
    | accumulate =>
      rcases children with _ | ⟨⟨kind, name, place, below⟩, _ | ⟨value, rest⟩⟩
      · rfl
      · cases kind <;> rfl
      · by_cases hkind : kind = .identifier
        · subst hkind
          rw [compile.eq_def, compile.eq_def]
          dsimp only
          rw [hchild inLoop rfl rfl]
        · rw [compile_accumulation_refused hkind, compile_accumulation_refused hkind]
    | and | or =>
      rcases children with _ | ⟨left, _ | ⟨right, _ | ⟨third, rest⟩⟩⟩
      case cons.cons.nil =>
        rw [compile_logical (by decide), compile_logical (by decide),
          hchild inLoop (Nat.zero_le 1) rfl, hchild inLoop (Nat.le_refl 1) rfl]
      all_goals rfl
    | plus | times | divide | modulo | equal | notEqual | less | lessEqual | greater
    | greaterEqual =>
      rcases children with _ | ⟨left, _ | ⟨right, _ | ⟨third, rest⟩⟩⟩
      case cons.cons.nil =>
        rw [compile_binary rfl, compile_binary rfl, hchild inLoop (Nat.zero_le 1) rfl,
          hchild inLoop (Nat.le_refl 1) rfl]
      all_goals rfl
    | minus =>
      rcases children with _ | ⟨left, _ | ⟨right, _ | ⟨third, rest⟩⟩⟩
      case cons.nil => rw [compile_negate, compile_negate, hchild inLoop (Nat.zero_le 1) rfl]
      case cons.cons.nil =>
        rw [compile_binary rfl, compile_binary rfl, hchild inLoop (Nat.zero_le 1) rfl,
          hchild inLoop (Nat.le_refl 1) rfl]
      all_goals rfl
    | not =>
      rcases children with _ | ⟨operand, _ | ⟨second, rest⟩⟩
      case cons.nil => rw [compile_not, compile_not, hchild inLoop rfl rfl]
      all_goals rfl
    | whileWord =>
      rcases children with _ | ⟨condition, _ | ⟨body, rest⟩⟩
      · rfl
      · rfl
      · rw [compile.eq_def, compile.eq_def]
        dsimp only
        rw [hchild inLoop (Nat.zero_le 1) rfl, hchild true (Nat.le_refl 1) rfl]
    | returnWord =>
      cases children with
      | nil => rfl
      | cons operand rest =>
        rw [compile.eq_def, compile.eq_def]
        dsimp only
        rw [hchild inLoop rfl rfl]
    | funcWord =>
      have hsame : analysis? path = analysis?' path := h [] _ .root rfl
      rw [compile.eq_def, compile.eq_def]
      dsimp only
      rw [hsame]
      rcases children with _ | ⟨parameters, _ | ⟨channels, _ | ⟨body, rest⟩⟩⟩
      case cons.cons.cons =>
        dsimp only
        rw [hchild false rfl rfl]
      all_goals rfl
    | application =>
      cases children with
      | nil => rfl
      | cons callee arguments =>
        rw [compile_apply, compile_apply, hchild inLoop trivial rfl,
          compileAll_congr fun i child hc => ?_]
        refine hchild inLoop trivial ?_
        rw [Nat.add_comm]
        exact hc
    | _ => rfl

end Node

end Scripting

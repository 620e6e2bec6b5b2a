import Scripting.Proofs.Compiled
import Scripting.Proofs.Constructs
import Scripting.Proofs.Listing
import Scripting.Proofs.Shapes

/-!
# Proofs: which sources are accepted

Apart from what the scanner, the parser and the analysis refuse, a source is refused for what single
nodes of its tree are and for where they stand, in dead code and in functions that are never called
as anywhere else. Nothing that the session holds plays a part in it.
-/

namespace Scripting

namespace Node

/-! ## The nodes that count -/

/-- The children of a node that are looked at: all but the lists of a function. The marks say
whether the node and the child stand in the body of a loop of their own function. -/
inductive Child : Bool → Node → Bool → Node → Prop
  | body {inLoop literal position parameters channels body rest} :
    Child inLoop ⟨.funcWord, literal, position, parameters :: channels :: body :: rest⟩ false body
  | condition {inLoop literal position condition rest} :
    Child inLoop ⟨.whileWord, literal, position, condition :: rest⟩ inLoop condition
  | round {inLoop literal position condition body rest} :
    Child inLoop ⟨.whileWord, literal, position, condition :: body :: rest⟩ true body
  | other {inLoop node child} (hkind : node.kind ≠ .funcWord ∧ node.kind ≠ .whileWord)
    (hc : child ∈ node.children) : Child inLoop node inLoop child

/-- The node stands in the tree `root`, in no list of parameters or channels. The first mark is that
of the root, the second that of the node. -/
inductive Occurs (start : Bool) (root : Node) : Bool → Node → Prop
  | root : Occurs start root start root
  | child {inLoop node inLoop' child} (h : Occurs start root inLoop node)
    (hc : Child inLoop node inLoop' child) : Occurs start root inLoop' child

/-- What a node must be in itself. -/
def Allowed (inLoop : Bool) (node : Node) : Prop :=
  match node.kind with
  | .period | .leftBracket | .methodCall => False
  | .int => Decimal.digitsValue node.literal.toList ≤ Nat.pow 2 63 - 1
  | .assign | .default => ∀ target, node.children.head? = some target →
    ∀ name ∈ target.listed, name.kind = .identifier
  | .accumulate => ∀ target, node.children.head? = some target → target.kind = .identifier
  | .breakWord | .continueWord => inLoop = true
  | _ => True

/-- All nodes of the tree that count are what they must be. -/
def Accepted (inLoop : Bool) (root : Node) : Prop :=
  ∀ inLoop' node, root.Occurs inLoop inLoop' node → node.Allowed inLoop'

variable {inLoop : Bool} {node : Node}

theorem Occurs.of_child {inLoop' : Bool} {child : Node} (hc : Child inLoop node inLoop' child)
    {last : Bool} {below : Node} (h : child.Occurs inLoop' last below) :
    node.Occurs inLoop last below := by
  induction h with
  | root => exact .child .root hc
  | child _ hstep ih => exact .child ih hstep

theorem Occurs.cases_head {last : Bool} {below : Node} (h : node.Occurs inLoop last below) :
    (last = inLoop ∧ below = node) ∨
      ∃ inLoop' child, Child inLoop node inLoop' child ∧ child.Occurs inLoop' last below := by
  induction h with
  | root => exact Or.inl ⟨rfl, rfl⟩
  | child _ hstep ih =>
    obtain ⟨rfl, rfl⟩ | ⟨inLoop', child, hc, h⟩ := ih
    · exact Or.inr ⟨_, _, hstep, .root⟩
    · exact Or.inr ⟨inLoop', child, hc, .child h hstep⟩

/-- A tree is accepted if its root is allowed and its children are accepted. -/
theorem accepted_iff : node.Accepted inLoop ↔ node.Allowed inLoop ∧
    ∀ inLoop' child, Child inLoop node inLoop' child → child.Accepted inLoop' := by
  constructor
  · exact fun h => ⟨h _ _ .root, fun _ _ hc _ _ hbelow => h _ _ (.of_child hc hbelow)⟩
  · rintro ⟨hself, hchildren⟩ last below hbelow
    obtain ⟨rfl, rfl⟩ | ⟨inLoop', child, hc, h⟩ := hbelow.cases_head
    · exact hself
    · exact hchildren inLoop' child hc last below h

/-- A node is accepted if it is allowed and all its children are accepted as it is. -/
theorem accepted_iff_children {kind : Kind} {literal : String} {position : Position}
    {children : List Node} (hkind : kind ≠ .funcWord ∧ kind ≠ .whileWord) :
    Accepted inLoop ⟨kind, literal, position, children⟩ ↔
      Allowed inLoop ⟨kind, literal, position, children⟩ ∧
        ∀ child ∈ children, child.Accepted inLoop := by
  refine accepted_iff.trans (and_congr_right fun _ => ⟨fun h child hc => ?_, fun h => ?_⟩)
  · exact h inLoop child (.other hkind hc)
  · intro inLoop' child hc
    cases hc with
    | body => exact absurd rfl hkind.1
    | condition | round => exact absurd rfl hkind.2
    | other _ hc => exact h child hc

theorem accepted_leaf_iff {kind : Kind} {literal : String} {position : Position}
    (hkind : kind ≠ .funcWord ∧ kind ≠ .whileWord) :
    Accepted inLoop ⟨kind, literal, position, []⟩ ↔
      Allowed inLoop ⟨kind, literal, position, []⟩ := by
  rw [accepted_iff_children hkind]
  exact and_iff_left fun child hc => absurd hc List.not_mem_nil

theorem accepted_pair_iff {kind : Kind} {literal : String} {position : Position}
    {left right : Node} (hkind : kind ≠ .funcWord ∧ kind ≠ .whileWord) :
    Accepted inLoop ⟨kind, literal, position, [left, right]⟩ ↔
      Allowed inLoop ⟨kind, literal, position, [left, right]⟩ ∧
        left.Accepted inLoop ∧ right.Accepted inLoop := by
  rw [accepted_iff_children hkind, List.forall_mem_cons, List.forall_mem_singleton]

theorem accepted_single_iff {kind : Kind} {literal : String} {position : Position}
    {operand : Node} (hkind : kind ≠ .funcWord ∧ kind ≠ .whileWord) :
    Accepted inLoop ⟨kind, literal, position, [operand]⟩ ↔
      Allowed inLoop ⟨kind, literal, position, [operand]⟩ ∧ operand.Accepted inLoop := by
  rw [accepted_iff_children hkind, List.forall_mem_singleton]

theorem accepted_loop_iff {literal : String} {position : Position} {condition body : Node} :
    Accepted inLoop ⟨.whileWord, literal, position, [condition, body]⟩ ↔
      condition.Accepted inLoop ∧ body.Accepted true := by
  rw [accepted_iff, and_iff_right (show Allowed inLoop ⟨.whileWord, _, _, _⟩ from trivial)]
  constructor
  · exact fun h => ⟨h _ _ .condition, h _ _ .round⟩
  · rintro ⟨hcondition, hbody⟩ inLoop' child hc
    cases hc with
    | condition => exact hcondition
    | round => exact hbody
    | other hkind => exact absurd rfl hkind.2

theorem accepted_function_iff {literal : String} {position : Position}
    {parameters channels body : Node} :
    Accepted inLoop ⟨.funcWord, literal, position, [parameters, channels, body]⟩ ↔
      body.Accepted false := by
  rw [accepted_iff, and_iff_right (show Allowed inLoop ⟨.funcWord, _, _, _⟩ from trivial)]
  constructor
  · exact fun h => h _ _ .body
  · intro hbody inLoop' child hc
    cases hc with
    | body => exact hbody
    | other hkind => exact absurd rfl hkind.1

/-- Names are always accepted. -/
theorem accepted_of_identifier (hshaped : node.Shaped) (hkind : node.kind = .identifier) :
    node.Accepted inLoop := by
  obtain ⟨kind, literal, position, children⟩ := node
  cases hkind
  have hnone : children = [] := List.eq_nil_of_length_eq_zero hshaped.self.2
  exact (accepted_iff_children (by decide)).2 ⟨trivial, hnone ▸ nofun⟩

/-- Lists of names are always accepted. -/
theorem accepted_of_listed (hshaped : node.Shaped)
    (h : ∀ name ∈ node.listed, name.kind = .identifier) : node.Accepted inLoop := by
  obtain ⟨hlist, hlisted⟩ | ⟨-, -, hlisted⟩ := node.listed_cases
  · obtain ⟨kind, literal, position, children⟩ := node
    have hnames : ∀ name ∈ children, name.Accepted inLoop :=
      fun name hn => accepted_of_identifier (hshaped.child hn) (h name (hlisted ▸ hn))
    rcases hlist with rfl | rfl
    · exact (accepted_iff_children (by decide)).2 ⟨trivial, hnames⟩
    · exact (accepted_iff_children (by decide)).2 ⟨trivial, hnames⟩
  · exact accepted_of_identifier hshaped (h _ (hlisted ▸ List.mem_singleton_self _))

end Node

/-! ## Nodes that were analysed -/

namespace Node

variable {path : Path}

/-- The node was parsed and analysed, and the functions found in it have their analyses. -/
structure Ready (analysis? : Path → Option Analysis) (path : Path) (node : Node) : Prop where
  shaped : node.Shaped
  surveyed : ∃ s, node.survey path = .ok s ∧ ∀ q, s.Finds q → ∃ a, analysis? q = some a

variable {analysis? : Path → Option Analysis} {kind : Kind} {literal : String}
  {position : Position} {children : List Node}

theorem Ready.child (h : Ready analysis? path ⟨kind, literal, position, children⟩)
    (hkind : kind ∉ [Kind.funcWord, .methodCall, .period]) {i : Nat} {child : Node}
    (hc : children[i]? = some child) : Ready analysis? (i :: path) child := by
  obtain ⟨s, hs, hfound⟩ := h.surveyed
  obtain ⟨s', hs', hpart⟩ := survey_child hs hkind hc
  exact ⟨h.shaped.child (List.mem_of_getElem? hc), s', hs', fun q hq => hfound q (hpart.finds hq)⟩

theorem Ready.function (h : Ready analysis? path ⟨.funcWord, literal, position, children⟩) :
    ∃ parameters channels body a, children = [parameters, channels, body] ∧
      analysis? path = some a ∧ Ready analysis? (2 :: path) body := by
  obtain ⟨s, hs, hfound⟩ := h.surveyed
  cases surveyed_of_survey hs with
  | @function _ parameters channels body rest ps cs b hps hcs hbody =>
    have hrest : rest = [] :=
      List.eq_nil_of_length_eq_zero (Nat.succ.inj (Nat.succ.inj (Nat.succ.inj h.shaped.self.2)))
    obtain ⟨a, ha⟩ := hfound path (Survey.finds_ofFunction _ _ _ _)
    subst hrest
    refine ⟨parameters, channels, body, a, rfl, ha, h.shaped.child (by simp), b, hbody, ?_⟩
    exact fun q hq => hfound q (hq.inside _ _ _)
  | assignment hkind => simp at hkind
  | other hkind => exact absurd (by decide) hkind

/-- A declaration has only names. -/
theorem Ready.declared (h : Ready analysis? path ⟨.externWord, literal, position, children⟩) :
    ∀ child ∈ children, child.kind = .identifier := by
  obtain ⟨s, hs, -⟩ := h.surveyed
  cases surveyed_of_survey hs with
  | declaration hnames =>
    intro child hc
    obtain ⟨name, hname⟩ := exists_of_mapM hnames hc
    exact (declaredName_eq_ok_iff.1 hname).1
  | assignment hkind => simp at hkind
  | other hkind => exact absurd (by decide) hkind

/-! ## Nodes that have code -/

/-- The node has code. -/
def Compiles (analysis? : Path → Option Analysis) (inLoop : Bool) (path : Path) (node : Node) :
    Prop :=
  ∃ code, node.compile analysis? inLoop path = .ok code

section

variable {ε α β γ : Type} {x : Except ε α} {y : Except ε β}

theorem exists_ok_iff (f : α → γ) : (∃ c, (do return f (← x)) = Except.ok c) ↔ ∃ a, x = .ok a := by
  cases x with
  | ok a => exact iff_of_true ⟨_, rfl⟩ ⟨a, rfl⟩
  | error e => exact iff_of_false (fun ⟨_, h⟩ => nomatch h) fun ⟨_, h⟩ => nomatch h

theorem exists_ok_pair_iff (f : α → β → γ) :
    (∃ c, (do let a ← x; let b ← y; return f a b) = Except.ok c) ↔
      (∃ a, x = .ok a) ∧ ∃ b, y = .ok b := by
  cases x with
  | ok a => exact (exists_ok_iff (f a)).trans (and_iff_right ⟨a, rfl⟩).symm
  | error e => exact iff_of_false (fun ⟨_, h⟩ => nomatch h) fun ⟨⟨_, h⟩, _⟩ => nomatch h

end

theorem compileAll_ok_iff {nodes : List Node} : ∀ {index : Nat},
    (∃ codes, compileAll analysis? inLoop path index nodes = .ok codes) ↔
      ∀ (i : Nat) (child : Node), nodes[i]? = some child →
        child.Compiles analysis? inLoop ((index + i) :: path) := by
  induction nodes with
  | nil =>
    intro index
    exact iff_of_true ⟨[], by rw [compileAll]⟩ fun i child hc => by simp at hc
  | cons first rest ih =>
    intro index
    rw [compileAll, exists_ok_pair_iff, ih]
    constructor
    · rintro ⟨hfirst, hrest⟩ i child hc
      cases i with
      | zero =>
        cases hc
        exact hfirst
      | succ i =>
        rw [← Nat.add_assoc, Nat.add_right_comm]
        exact hrest i child hc
    · refine fun h => ⟨h 0 first rfl, fun i child hc => ?_⟩
      rw [Nat.add_right_comm]
      exact h (i + 1) child hc

theorem targets_ok_iff {operator : Kind} {target : Node} {rest : List Node} :
    (∃ names, targets operator position (target :: rest) = .ok names) ↔
      ∀ name ∈ target.listed, name.kind = .identifier := by
  unfold targets
  dsimp only
  generalize target.listed = names
  induction names with
  | nil => exact iff_of_true ⟨[], rfl⟩ nofun
  | cons first others ih =>
    rw [List.mapM_cons, exists_ok_pair_iff, ih, List.forall_mem_cons]
    refine and_congr_left fun _ => ?_
    by_cases hkind : first.kind = .identifier
    · exact iff_of_true ⟨_, if_pos hkind⟩ hkind
    · rw [if_neg hkind]
      exact iff_of_false (fun ⟨_, h⟩ => nomatch h) hkind

theorem number_int_ok_iff (hspells : Kind.int.Spells literal.toList) :
    (∃ code, number .int literal position = .ok code) ↔
      Decimal.digitsValue literal.toList ≤ Nat.pow 2 63 - 1 := by
  rw [← Decimal.readInt64_ok_iff hspells]
  unfold number
  dsimp only
  cases Decimal.readInt64 literal.toList with
  | ok n => exact iff_of_true ⟨_, rfl⟩ ⟨n, rfl⟩
  | error e => exact iff_of_false (fun ⟨_, h⟩ => nomatch h) fun ⟨_, h⟩ => nomatch h

theorem number_float_ok (hspells : Kind.float.Spells literal.toList) :
    ∃ code, number .float literal position = .ok code := by
  obtain ⟨x, hx⟩ := Decimal.readFloat_ok hspells
  unfold number
  dsimp only
  rw [hx]
  exact ⟨_, rfl⟩

/-! ### What each construct asks of its parts -/

section

variable {left right : Node}

theorem compiles_assign_iff (hkind : kind = .assign ∨ kind = .default) :
    Compiles analysis? inLoop path ⟨kind, literal, position, [left, right]⟩ ↔
      (∀ name ∈ left.listed, name.kind = .identifier) ∧
        right.Compiles analysis? inLoop (1 :: path) := by
  rcases hkind with rfl | rfl
  · rw [Compiles, compile_assign]
    exact (exists_ok_pair_iff _).trans (and_congr_left fun _ => targets_ok_iff)
  · rw [Compiles, compile_default]
    exact (exists_ok_pair_iff _).trans (and_congr_left fun _ => targets_ok_iff)

theorem compiles_accumulate_iff :
    Compiles analysis? inLoop path ⟨.accumulate, literal, position, [left, right]⟩ ↔
      left.kind = .identifier ∧ right.Compiles analysis? inLoop (1 :: path) := by
  obtain ⟨kind, name, place, below⟩ := left
  by_cases hkind : kind = .identifier
  · subst hkind
    rw [Compiles, compile_accumulation]
    exact (exists_ok_iff _).trans (and_iff_right rfl).symm
  · refine iff_of_false ?_ fun h => hkind h.1
    rintro ⟨code, h⟩
    cases (compile_accumulation_refused hkind).symm.trans h

theorem compiles_branches_iff (h : 2 ≤ children.length) :
    Compiles analysis? inLoop path ⟨.ifWord, literal, position, children⟩ ↔
      ∃ codes, compileAll analysis? inLoop path 0 children = .ok codes := by
  constructor
  · rintro ⟨code, hcode⟩
    obtain ⟨codes, hcodes, -⟩ := bind_eq_ok_iff.1
      (show compileAll analysis? inLoop path 0 children >>= _ = .ok code from hcode)
    exact ⟨codes, hcodes⟩
  · rintro ⟨codes, hcodes⟩
    exact ⟨_, compile_branches hcodes (length_of_compileAll hcodes ▸ h)⟩

theorem compiles_loop_iff :
    Compiles analysis? inLoop path ⟨.whileWord, literal, position, [left, right]⟩ ↔
      left.Compiles analysis? inLoop (0 :: path) ∧ right.Compiles analysis? true (1 :: path) := by
  rw [Compiles, compile_loop]
  exact exists_ok_pair_iff _

theorem compiles_leave_iff (hkind : kind = .breakWord ∨ kind = .continueWord) :
    Compiles analysis? inLoop path ⟨kind, literal, position, children⟩ ↔ inLoop = true := by
  rcases hkind with rfl | rfl
  · rw [Compiles, compile_break]
    cases inLoop <;> simp
  · rw [Compiles, compile_continue]
    cases inLoop <;> simp

theorem compiles_logical_iff (hkind : kind = .and ∨ kind = .or) :
    Compiles analysis? inLoop path ⟨kind, literal, position, [left, right]⟩ ↔
      left.Compiles analysis? inLoop (0 :: path) ∧ right.Compiles analysis? inLoop (1 :: path) := by
  rw [Compiles, compile_logical hkind]
  exact exists_ok_pair_iff _

theorem compiles_binary_iff {op : BinaryOp} (hop : kind.binaryOp? = some op) :
    Compiles analysis? inLoop path ⟨kind, literal, position, [left, right]⟩ ↔
      left.Compiles analysis? inLoop (0 :: path) ∧ right.Compiles analysis? inLoop (1 :: path) := by
  rw [Compiles, compile_binary hop]
  exact exists_ok_pair_iff _

theorem compiles_single_iff (hkind : kind = .not ∨ kind = .minus ∨ kind = .returnWord) :
    Compiles analysis? inLoop path ⟨kind, literal, position, [left]⟩ ↔
      left.Compiles analysis? inLoop (0 :: path) := by
  rcases hkind with rfl | rfl | rfl
  · rw [Compiles, compile_not]
    exact exists_ok_iff _
  · rw [Compiles, compile_negate]
    exact exists_ok_iff _
  · rw [Compiles, compile_return]
    exact exists_ok_iff _

theorem compiles_apply_iff :
    Compiles analysis? inLoop path ⟨.application, literal, position, left :: children⟩ ↔
      left.Compiles analysis? inLoop (0 :: path) ∧
        ∃ codes, compileAll analysis? inLoop path 1 children = .ok codes := by
  rw [Compiles, compile_apply]
  exact exists_ok_pair_iff _

theorem compiles_function_iff {parameters channels : Node} {a : Analysis}
    (ha : analysis? path = some a) :
    Compiles analysis? inLoop path ⟨.funcWord, literal, position, [parameters, channels, left]⟩ ↔
      left.Compiles analysis? false (2 :: path) := by
  rw [Compiles, compile_function ha]
  exact exists_ok_iff _

end

/-- In a tree that was parsed and analysed a node has code exactly if it is accepted. -/
theorem compiles_iff (node : Node) : ∀ {inLoop : Bool} {path : Path},
    Ready analysis? path node →
      (node.Compiles analysis? inLoop path ↔ node.Accepted inLoop) := by
  induction node using Node.induct with
  | h kind literal position children ih =>
    intro inLoop path hready
    obtain ⟨hspells, htakes⟩ := hready.shaped.self
    have hchild : kind ∉ [Kind.funcWord, .methodCall, .period] → ∀ {inLoop : Bool} (i : Nat)
        {child : Node}, children[i]? = some child →
          (child.Compiles analysis? inLoop (i :: path) ↔ child.Accepted inLoop) :=
      fun hkind _ _ child hc => ih child (List.mem_of_getElem? hc) (hready.child hkind hc)
    have hall : kind ∉ [Kind.funcWord, .methodCall, .period] → ∀ index nodes,
        (∀ i, nodes[i]? = children[index + i]?) →
          ((∃ codes, compileAll analysis? inLoop path index nodes = .ok codes) ↔
            ∀ child ∈ nodes, child.Accepted inLoop) := by
      intro hkind index nodes hnodes
      rw [compileAll_ok_iff]
      constructor
      · intro h child hc
        obtain ⟨i, hi⟩ := List.getElem?_of_mem hc
        exact (hchild hkind (index + i) (hnodes i ▸ hi)).1 (h i child hi)
      · intro h i child hc
        exact (hchild hkind (index + i) (hnodes i ▸ hc)).2 (h child (List.mem_of_getElem? hc))
    cases kind with
    | int =>
      cases List.eq_nil_of_length_eq_zero htakes
      rw [accepted_leaf_iff (by decide), Compiles, compile_int]
      exact number_int_ok_iff hspells
    | float =>
      cases List.eq_nil_of_length_eq_zero htakes
      rw [accepted_leaf_iff (by decide), Compiles, compile_float]
      exact iff_of_true (number_float_ok hspells) trivial
    | string | trueWord | falseWord | nilWord =>
      cases List.eq_nil_of_length_eq_zero htakes
      rw [accepted_leaf_iff (by decide)]
      exact iff_of_true ⟨_, compile_constant rfl⟩ trivial
    | identifier =>
      exact iff_of_true ⟨_, compile_identifier⟩ (accepted_of_identifier hready.shaped rfl)
    | statements =>
      rw [accepted_iff_children (by decide), Compiles, compile_statements]
      refine (exists_ok_iff _).trans ((hall (by decide) 0 children ?_).trans ?_)
      · exact fun i => by rw [Nat.zero_add]
      · exact (and_iff_right trivial).symm
    | comma | leftParen =>
      rw [accepted_iff_children (by decide), Compiles, compile_tuple (by decide)]
      refine (exists_ok_iff _).trans ((hall (by decide) 0 children ?_).trans ?_)
      · exact fun i => by rw [Nat.zero_add]
      · exact (and_iff_right trivial).symm
    | assign | default =>
      obtain ⟨target, value, rfl⟩ := List.length_eq_two.1 htakes
      have htarget : target.Shaped := hready.shaped.child List.mem_cons_self
      rw [compiles_assign_iff (by decide), accepted_pair_iff (by decide),
        hchild (by decide) 1 rfl]
      constructor
      · rintro ⟨hnames, hvalue⟩
        exact ⟨fun _ h => Option.some.inj h ▸ hnames, accepted_of_listed htarget hnames, hvalue⟩
      · rintro ⟨hallowed, -, hvalue⟩
        exact ⟨hallowed target rfl, hvalue⟩
    | accumulate =>
      obtain ⟨target, value, rfl⟩ := List.length_eq_two.1 htakes
      have htarget : target.Shaped := hready.shaped.child List.mem_cons_self
      rw [compiles_accumulate_iff, accepted_pair_iff (by decide), hchild (by decide) 1 rfl]
      constructor
      · rintro ⟨hname, hvalue⟩
        exact ⟨fun _ h => Option.some.inj h ▸ hname, accepted_of_identifier htarget hname, hvalue⟩
      · rintro ⟨hallowed, -, hvalue⟩
        exact ⟨hallowed target rfl, hvalue⟩
    | and | or =>
      obtain ⟨left, right, rfl⟩ := List.length_eq_two.1 htakes
      rw [compiles_logical_iff (by decide), accepted_pair_iff (by decide),
        hchild (by decide) 0 rfl, hchild (by decide) 1 rfl]
      exact (and_iff_right trivial).symm
    | plus | times | divide | modulo | equal | notEqual | less | lessEqual | greater
    | greaterEqual =>
      obtain ⟨left, right, rfl⟩ := List.length_eq_two.1 htakes
      rw [compiles_binary_iff rfl, accepted_pair_iff (by decide), hchild (by decide) 0 rfl,
        hchild (by decide) 1 rfl]
      exact (and_iff_right trivial).symm
    | not =>
      obtain ⟨operand, rfl⟩ := List.length_eq_one_iff.1 htakes
      rw [compiles_single_iff (by decide), accepted_single_iff (by decide),
        hchild (by decide) 0 rfl]
      exact (and_iff_right trivial).symm
    | minus =>
      rcases htakes with htakes | htakes
      · obtain ⟨operand, rfl⟩ := List.length_eq_one_iff.1 htakes
        rw [compiles_single_iff (by decide), accepted_single_iff (by decide),
          hchild (by decide) 0 rfl]
        exact (and_iff_right trivial).symm
      · obtain ⟨left, right, rfl⟩ := List.length_eq_two.1 htakes
        rw [compiles_binary_iff rfl, accepted_pair_iff (by decide),
          hchild (by decide) 0 rfl, hchild (by decide) 1 rfl]
        exact (and_iff_right trivial).symm
    | returnWord =>
      match children, htakes with
      | [], _ =>
        rw [accepted_leaf_iff (by decide)]
        exact iff_of_true ⟨_, compile_return_nothing⟩ trivial
      | [operand], _ =>
        rw [compiles_single_iff (by decide), accepted_single_iff (by decide),
          hchild (by decide) 0 rfl]
        exact (and_iff_right trivial).symm
    | ifWord =>
      rw [compiles_branches_iff htakes, accepted_iff_children (by decide)]
      refine (hall (by decide) 0 children ?_).trans (and_iff_right trivial).symm
      exact fun i => by rw [Nat.zero_add]
    | whileWord =>
      obtain ⟨condition, body, rfl⟩ := List.length_eq_two.1 htakes
      rw [compiles_loop_iff, accepted_loop_iff, hchild (by decide) 0 rfl, hchild (by decide) 1 rfl]
    | breakWord | continueWord =>
      cases List.eq_nil_of_length_eq_zero htakes
      rw [compiles_leave_iff (by decide), accepted_leaf_iff (by decide)]
      exact Iff.rfl
    | externWord =>
      rw [accepted_iff_children (by decide)]
      refine iff_of_true ⟨_, compile_declared⟩ ⟨trivial, fun child hc => ?_⟩
      exact accepted_of_identifier (hready.shaped.child hc) (hready.declared child hc)
    | funcWord =>
      obtain ⟨parameters, channels, body, a, rfl, ha, hbody⟩ := hready.function
      rw [compiles_function_iff ha, accepted_function_iff]
      exact ih body (by simp) hbody
    | application =>
      match children, htakes with
      | callee :: arguments, _ =>
        rw [compiles_apply_iff, accepted_iff_children (by decide), List.forall_mem_cons,
          hchild (by decide) 0 rfl, hall (by decide) 1 arguments fun i => by rw [Nat.add_comm]; rfl]
        exact (and_iff_right trivial).symm
    | period | leftBracket | methodCall =>
      rw [Compiles, compile_refused (by decide)]
      exact iff_of_false (fun ⟨_, h⟩ => nomatch h) fun h => h _ _ .root
    | illegal | finish | semicolon | rightParen | rightBracket | leftBrace | rightBrace
    | elseWord => exact htakes.elim

end Node

namespace Program

/-- An analysed program whose tree was parsed compiles exactly if its tree is accepted. -/
theorem compile_ok_iff {root : Node} {p : Program} (hshaped : root.Shaped)
    (hp : ofNode root = .ok p) : (∃ code, p.compile = .ok code) ↔ root.Accepted false := by
  obtain ⟨s, hs, -⟩ := bind_eq_ok_iff.1 hp
  have hready : Node.Ready p.analysis? [] root :=
    ⟨hshaped, s, hs, fun q hq => analysis?_of_finds hs hp hq⟩
  rw [compile_eq hp]
  exact Node.compiles_iff root hready

end Program

namespace Session

/-! ## Refused sources -/

/-- The code of a source, made without a session. -/
def translated (source : String) : Except (Stop Error) Code := do
  let tokens ← (Token.scan source).mapError fun e => .error (.scan e)
  let root ← (Node.ofTokens tokens).mapError (·.map .parse)
  let program ← (Program.ofNode root).mapError fun e => .error (.analysis e)
  program.compile.mapError fun e => .error (.compile e)

/-- Nothing has happened in the session but that what is to be shown of the source was printed. -/
def Untouched (display : Display) (a b : Session) : Prop :=
  b.state = { a.state with output := b.state.output } ∧
    (display = .plain → b.state = a.state)

theorem untouched_refl (display : Display) (a : Session) : Untouched display a a :=
  ⟨rfl, fun _ => rfl⟩

theorem Untouched.trans {display : Display} {a b c : Session} (h : Untouched display a b)
    (h' : Untouched display b c) : Untouched display a c :=
  ⟨h'.1.trans (by rw [h.1]), fun hplain => (h'.2 hplain).trans (h.2 hplain)⟩

/-- In every session the computation has the same result, and touches nothing. -/
def Computes {α : Type} (display : Display) (m : SessionM α) (result : Except (Stop Error) α) :
    Prop :=
  ∀ a, ∃ b, Untouched display a b ∧ m a = match result with
    | .ok x => .ok x b
    | .error e => .error e b

section

variable {display : Display} {α β : Type} {m : SessionM α} {f : α → SessionM β}
  {result : Except (Stop Error) α} {result' : Except (Stop Error) β}

theorem Computes.bind {g : α → Except (Stop Error) β} (h : Computes display m result)
    (hf : ∀ x, Computes display (f x) (g x)) : Computes display (m >>= f) (result >>= g) := by
  intro a
  obtain ⟨b, hab, hm⟩ := h a
  cases result with
  | error e => exact ⟨b, hab, bind_error hm⟩
  | ok x =>
    obtain ⟨c, hbc, hc⟩ := hf x b
    exact ⟨c, hab.trans hbc, (bind_ok hm).trans hc⟩

/-- A step without a result of its own. -/
theorem Computes.after {m : SessionM Unit} {f : Unit → SessionM β}
    (h : Computes display m (.ok ())) (hf : Computes display (f ()) result') :
    Computes display (m >>= f) result' :=
  h.bind fun _ => hf

theorem computes_get {f : Session → SessionM β} (hf : ∀ s, Computes display (f s) result') :
    Computes display (get >>= f) result' := by
  intro a
  obtain ⟨b, hab, hb⟩ := hf a a
  exact ⟨b, hab, (bind_ok rfl).trans hb⟩

theorem computes_orStop {ε : Type} (kind : ε → Error) (x : Except ε α) :
    Computes display (orStop kind x) (x.mapError fun e => .error (kind e)) := by
  intro a
  cases x with
  | ok => exact ⟨a, untouched_refl _ a, rfl⟩
  | error => exact ⟨a, untouched_refl _ a, rfl⟩

theorem computes_printIf {shown : Bool} (h : shown = true → display ≠ .plain) (text : String) :
    Computes display (printIf shown text) (.ok ()) := by
  intro a
  cases shown with
  | false => exact ⟨a, untouched_refl _ a, rfl⟩
  | true =>
    refine ⟨_, ?_, rfl⟩
    exact ⟨rfl, fun hplain => absurd hplain (h rfl)⟩

theorem computes_parsed (source : String) : Computes display (parsed source) (do
    let tokens ← (Token.scan source).mapError fun e => .error (.scan e)
    (Node.ofTokens tokens).mapError (·.map .parse)) := by
  refine (computes_orStop _ _).bind fun tokens a => ?_
  cases Node.ofTokens tokens with
  | ok => exact ⟨a, untouched_refl _ a, rfl⟩
  | error => exact ⟨a, untouched_refl _ a, rfl⟩

end

theorem computes_prepare (display : Display) (source : String) :
    Computes display (prepare display source) (translated source) := by
  have htree : display.tree = true → display ≠ .plain := by
    rintro h rfl
    cases h
  have hanalyses : display.analyses = true → display ≠ .plain := by
    rintro h rfl
    cases h
  have hsame : translated source = ((do
      let tokens ← (Token.scan source).mapError fun e => .error (.scan e)
      (Node.ofTokens tokens).mapError (·.map .parse)) >>= fun root => do
        let program ← (Program.ofNode root).mapError fun e => .error (.analysis e)
        program.compile.mapError fun e => .error (.compile e)) := by
    unfold translated
    rw [bind_assoc]
  rw [hsame]
  unfold prepare
  refine (computes_parsed source).bind fun root => (computes_printIf htree _).after ?_
  refine computes_get fun s => (computes_orStop _ _).bind fun program => ?_
  have hwarned : ∀ names, Computes display
      (modify fun s => { s with warnings := s.warnings ++ names }) (.ok ()) := by
    refine fun names a => ⟨_, ?_, rfl⟩
    exact ⟨rfl, fun _ => rfl⟩
  exact (hwarned _).after ((computes_printIf hanalyses _).after (computes_orStop _ _))

/-- The ways in which a source is refused. -/
inductive Refuses (source : String) : Error → Prop
  | scan {errors} : Refuses source (.scan errors)
  | parse {e} : Refuses source (.parse e)
  | analysis {root e} (hparses : Parses source root) (h : Program.ofNode root = .error e) :
    Refuses source (.analysis e)
  | compile {root p e} (hparses : Parses source root) (hp : Program.ofNode root = .ok p)
    (h : p.compile = .error e) : Refuses source (.compile e)

theorem mapError_eq_ok_iff {ε δ α : Type} {f : ε → δ} {x : Except ε α} {b : α} :
    x.mapError f = .ok b ↔ x = .ok b := by
  cases x <;> simp [Except.mapError]

theorem mapError_eq_error_iff {ε δ α : Type} {f : ε → δ} {x : Except ε α} {e : δ} :
    x.mapError f = .error e ↔ ∃ e', x = .error e' ∧ f e' = e := by
  cases x <;> simp [Except.mapError]

theorem refuses_of_translated {source : String} {e : Error}
    (h : translated source = .error (.error e)) : Refuses source e := by
  unfold translated at h
  obtain h | ⟨tokens, hscan, h⟩ := bind_eq_error_iff.1 h
  · obtain ⟨errors, -, ⟨⟩⟩ := mapError_eq_error_iff.1 h
    exact .scan
  obtain h | ⟨root, hparse, h⟩ := bind_eq_error_iff.1 h
  · obtain ⟨stop, -, hstop⟩ := mapError_eq_error_iff.1 h
    cases stop <;> cases hstop
    exact .parse
  have hparses : Parses source root :=
    ⟨tokens, mapError_eq_ok_iff.1 hscan, mapError_eq_ok_iff.1 hparse⟩
  obtain h | ⟨p, hp, h⟩ := bind_eq_error_iff.1 h
  · obtain ⟨e', he, ⟨⟩⟩ := mapError_eq_error_iff.1 h
    exact .analysis hparses he
  · obtain ⟨e', he, ⟨⟩⟩ := mapError_eq_error_iff.1 h
    exact .compile hparses (mapError_eq_ok_iff.1 hp) he

theorem translated_of_prepare {display : Display} {source : String} {a b : Session} {e : Stop Error}
    (h : prepare display source a = .error e b) : translated source = .error e := by
  obtain ⟨c, -, hprepare⟩ := computes_prepare display source a
  cases htranslated : translated source with
  | ok code =>
    rw [htranslated] at hprepare
    cases h.symm.trans hprepare
  | error stop =>
    rw [htranslated] at hprepare
    cases h.symm.trans hprepare
    rfl

theorem refuses_of_prepare {display : Display} {source : String} {a b : Session} {e : Error}
    (h : prepare display source a = .error (.error e) b) : Refuses source e :=
  refuses_of_translated (translated_of_prepare h)

/-- What is refused is refused for its text. -/
theorem translated_ne_runtime (source : String) (r : RuntimeError) :
    translated source ≠ .error (.error (.runtime r)) :=
  fun h => nomatch refuses_of_translated h

theorem translated_of_parses {source : String} {root : Node} {p : Program}
    (hparses : Parses source root) (hp : Program.ofNode root = .ok p) :
    translated source = p.compile.mapError fun e => .error (.compile e) := by
  obtain ⟨tokens, hscan, hparse⟩ := hparses
  unfold translated
  rw [hscan]
  change ((Node.ofTokens tokens).mapError _ >>= _) = _
  rw [hparse]
  change ((Program.ofNode root).mapError _ >>= _) = _
  rw [hp]
  rfl

end Session

/-- Of the sources that can be parsed and analysed, those compile whose trees are accepted. Whether
a source is refused, and why, is the same in every session. A session in which it is refused stays
as it was, and where it is not refused, the code of the source is evaluated in the session as it
was. -/
theorem static_acceptance (source : String) :
    (∀ root p, Session.Parses source root → Program.ofNode root = .ok p →
      Session.translated source = (p.compile.mapError fun e => .error (.compile e)) ∧
      ((∃ code, p.compile = .ok code) ↔
        ∀ inLoop node, root.Occurs false inLoop node → node.Allowed inLoop)) ∧
    (∀ e, Session.translated source = .error e → (∀ r, e ≠ .error (.runtime r)) ∧
      ∀ fuel display a, ∃ b, Session.Untouched display a b ∧
        Session.run fuel display source a = .error e b) ∧
    ∀ code, Session.translated source = .ok code →
      ∀ fuel display a, ∃ b, Session.Untouched display a b ∧
        Session.run fuel display source a =
          (do return Eval.returned (← Session.evaluating (code.run fuel .global)) : SessionM _)
        b := by
  refine ⟨fun root p hparses hp => ?_, ?_, ?_⟩
  · exact ⟨Session.translated_of_parses hparses hp, p.compile_ok_iff hparses.shaped hp⟩
  · refine fun e he => ⟨fun r hr => Session.translated_ne_runtime source r (hr ▸ he), ?_⟩
    intro fuel display a
    obtain ⟨b, hab, hb⟩ := Session.computes_prepare display source a
    rw [he] at hb
    exact ⟨b, hab, by rw [Session.run_eq, bind_error hb]⟩
  · intro code hcode fuel display a
    obtain ⟨b, hab, hb⟩ := Session.computes_prepare display source a
    rw [hcode] at hb
    exact ⟨b, hab, by rw [Session.run_eq, bind_ok hb]⟩

/-- A loop around a function does not help a break inside it, and the function need not be
called. -/
theorem static_acceptance_uncalled :
    ∃ root p, Session.Parses "while true { func() { break } }" root ∧
      Program.ofNode root = .ok p ∧
      root.Occurs false false ⟨.breakWord, "break", ⟨1, 23⟩, []⟩ ∧
      (¬ ∃ code, p.compile = .ok code) ∧
      (∀ fuel display a, ∃ b, Session.Untouched display a b ∧
        Session.run fuel display "while true { func() { break } }" a =
          .error (.error (.compile ⟨.outsideLoop .breakWord, ⟨1, 23⟩⟩)) b) ∧
      ∀ fuel display a, ∃ b, Session.Untouched display a b ∧ Session.run fuel display "1" a = (do
        return Eval.returned (← Session.evaluating ((Code.literal (.int 1)).run fuel .global)) :
          SessionM _) b := by
  obtain ⟨root, p, hparses, hp, hbreak⟩ : ∃ root p,
      Session.Parses "while true { func() { break } }" root ∧ Program.ofNode root = .ok p ∧
      root.Occurs false false ⟨.breakWord, "break", ⟨1, 23⟩, []⟩ := by
    refine ⟨⟨.statements, "stmts", ⟨1, 1⟩, [⟨.whileWord, "while", ⟨1, 1⟩,
      [⟨.trueWord, "true", ⟨1, 7⟩, []⟩, ⟨.statements, "stmts", ⟨1, 14⟩, [⟨.funcWord, "func", ⟨1, 14⟩,
        [⟨.leftParen, "params", ⟨1, 18⟩, []⟩, ⟨.leftBracket, "channels", ⟨1, 21⟩, []⟩,
          ⟨.statements, "stmts", ⟨1, 23⟩, [⟨.breakWord, "break", ⟨1, 23⟩, []⟩]⟩]⟩]⟩]⟩]⟩,
      _, ⟨_, rfl, rfl⟩, rfl, ?_⟩
    -- Down through the loop, its body, the function and the function's body.
    exact .child (.child (.child (.child (.child .root (.other (by decide) (.head _))) .round)
      (.other (by decide) (.head _))) .body) (.other (by decide) (.head _))
  obtain ⟨hparsed, hrefused, -⟩ := static_acceptance "while true { func() { break } }"
  obtain ⟨-, -, haccepted⟩ := static_acceptance "1"
  obtain ⟨-, hiff⟩ := hparsed root p hparses hp
  refine ⟨root, p, hparses, hp, hbreak, fun hcode => ?_, (hrefused _ rfl).2, haccepted _ rfl⟩
  exact Bool.false_ne_true (hiff.1 hcode _ _ hbreak)

end Scripting

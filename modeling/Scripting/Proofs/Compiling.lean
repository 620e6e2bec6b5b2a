import Scripting.Code.Compile
import Scripting.Proofs.Inversion
import Scripting.Proofs.Parts

/-!
# Proofs: what nodes are compiled to

`CompiledTo` lists the ways in which a node can have code, one for each construct, with the children
that the parts come from. `compiledTo_of_compile` reads it off the compiler once; statements on
compiled code go by induction on the tree and then by these cases.
-/

namespace Scripting

namespace Node

/-- The code of a child of the node at `path`. -/
def ChildTo (analysis? : Path → Option Analysis) (inLoop : Bool) (path : Path)
    (children : List Node) (index : Nat) (code : Code) : Prop :=
  ∃ child, children[index]? = some child ∧
    child.compile analysis? inLoop (index :: path) = .ok code

/-- The ways in which a node has code. -/
inductive CompiledTo (analysis? : Path → Option Analysis) (inLoop : Bool) (path : Path)
    (position : Position) (children : List Node) : Kind → String → Code → Prop
  | literal {kind literal} (value : Literal)
    (hkind : kind ∈ [Kind.int, .float, .string, .trueWord, .falseWord, .nilWord]) :
    CompiledTo analysis? inLoop path position children kind literal (.literal value)
  | name {x} : CompiledTo analysis? inLoop path position children .identifier x (.name x position)
  | statements {literal codes} (h : ∀ code ∈ codes,
      ∃ index, ChildTo analysis? inLoop path children index code) :
    CompiledTo analysis? inLoop path position children .statements literal (.statements codes)
  | tuple {kind literal codes} (hkind : kind = .comma ∨ kind = .leftParen)
    (h : ∀ code ∈ codes, ∃ index, ChildTo analysis? inLoop path children index code) :
    CompiledTo analysis? inLoop path position children kind literal (.tuple codes)
  | assign {literal names value} (hnames : targets .assign position children = .ok names)
    (h : ChildTo analysis? inLoop path children 1 value) :
    CompiledTo analysis? inLoop path position children .assign literal
      (.assign names value position)
  | default {literal names value} (hnames : targets .default position children = .ok names)
    (h : ChildTo analysis? inLoop path children 1 value) :
    CompiledTo analysis? inLoop path position children .default literal
      (.default names value position)
  | accumulate {literal target value}
    (hnames : targets .accumulate position children = .ok [target])
    (h : ChildTo analysis? inLoop path children 1 value) :
    CompiledTo analysis? inLoop path position children .accumulate literal
      (.accumulate target value position)
  | logical {kind literal decides left right} (hkind : kind = .and ∨ kind = .or)
    (hleft : ChildTo analysis? inLoop path children 0 left)
    (hright : ChildTo analysis? inLoop path children 1 right) :
    CompiledTo analysis? inLoop path position children kind literal
      (.logical decides left right position)
  | unary {kind literal op operand} (hkind : kind = .not ∨ kind.binaryOp? = some .subtract)
    (h : ChildTo analysis? inLoop path children 0 operand) :
    CompiledTo analysis? inLoop path position children kind literal (.unary op operand position)
  | binary {kind literal op left right} (hop : kind.binaryOp? = some op)
    (hleft : ChildTo analysis? inLoop path children 0 left)
    (hright : ChildTo analysis? inLoop path children 1 right) :
    CompiledTo analysis? inLoop path position children kind literal
      (.binary op left right position)
  | branches {literal codes} (h : ∀ code ∈ codes,
      ∃ index, ChildTo analysis? inLoop path children index code) :
    CompiledTo analysis? inLoop path position children .ifWord literal (.branches position codes)
  | loop {literal condition body} (hcondition : ChildTo analysis? inLoop path children 0 condition)
    (hbody : ChildTo analysis? true path children 1 body) :
    CompiledTo analysis? inLoop path position children .whileWord literal
      (.loop condition body position)
  | returnNothing {literal} :
    CompiledTo analysis? inLoop path position children .returnWord literal (.return .nothing)
  | return {literal operand} (h : ChildTo analysis? inLoop path children 0 operand) :
    CompiledTo analysis? inLoop path position children .returnWord literal (.return operand)
  | break {literal} (hloop : inLoop = true) :
    CompiledTo analysis? inLoop path position children .breakWord literal .break
  | continue {literal} (hloop : inLoop = true) :
    CompiledTo analysis? inLoop path position children .continueWord literal .continue
  | declaration {literal} :
    CompiledTo analysis? inLoop path position children .externWord literal .nothing
  | function {literal a body} (ha : analysis? path = some a)
    (h : ChildTo analysis? false path children 2 body) :
    CompiledTo analysis? inLoop path position children .funcWord literal (closure a body position)
  | apply {literal callee codes} (hcallee : ChildTo analysis? inLoop path children 0 callee)
    (h : ∀ code ∈ codes, ∃ index, ChildTo analysis? inLoop path children index code) :
    CompiledTo analysis? inLoop path position children .application literal
      (.apply callee (.tuple codes) position)

variable {analysis? : Path → Option Analysis} {inLoop : Bool} {path : Path} {kind : Kind}
  {literal : String} {position : Position} {children : List Node} {code : Code}

theorem childTo_of_compileAll {nodes : List Node} {index : Nat} {codes : List Code}
    (hnodes : ∀ i, nodes[i]? = children[index + i]?)
    (h : compileAll analysis? inLoop path index nodes = .ok codes) :
    ∀ code ∈ codes, ∃ index, ChildTo analysis? inLoop path children index code := by
  induction nodes generalizing index codes with
  | nil =>
    rw [compileAll] at h
    cases h
    exact fun code hc => absurd hc List.not_mem_nil
  | cons first rest ih =>
    rw [compileAll] at h
    obtain ⟨a, ha, h⟩ := bind_eq_ok_iff.1 h
    obtain ⟨b, hb, h⟩ := bind_eq_ok_iff.1 h
    cases h
    intro code hc
    rcases List.mem_cons.1 hc with rfl | hc
    · exact ⟨index, first, (hnodes 0).symm, ha⟩
    · refine ih (fun i => ?_) hb code hc
      rw [Nat.add_right_comm, Nat.add_assoc]
      exact hnodes (i + 1)

theorem length_of_compileAll {nodes : List Node} : ∀ {index : Nat} {codes : List Code},
    compileAll analysis? inLoop path index nodes = .ok codes → codes.length = nodes.length := by
  induction nodes with
  | nil =>
    intro index codes h
    rw [compileAll] at h
    cases h
    rfl
  | cons first rest ih =>
    intro index codes h
    rw [compileAll] at h
    obtain ⟨a, -, h⟩ := bind_eq_ok_iff.1 h
    obtain ⟨b, hb, h⟩ := bind_eq_ok_iff.1 h
    cases h
    exact congrArg (· + 1) (ih hb)

theorem literal_of_number (h : number kind literal position = .ok code) :
    ∃ value, code = .literal value := by
  unfold number at h
  split at h
  · split at h
    · exact ⟨_, (Except.ok.inj h).symm⟩
    · cases h
  · split at h
    · exact ⟨_, (Except.ok.inj h).symm⟩
    · cases h

/-- The right side of an assignment. -/
theorem value_of_compile {make : Code → Code} {malformed : Except CompileError Code}
    (h : (match children with
      | _ :: value :: _ => do
        return make (← compile analysis? inLoop (1 :: path) value)
      | _ => malformed) = .ok code) (hmalformed : malformed ≠ .ok code := by nofun) :
    ∃ value, ChildTo analysis? inLoop path children 1 value ∧ code = make value := by
  split at h
  · obtain ⟨value, hvalue, h⟩ := bind_eq_ok_iff.1 h
    exact ⟨value, ⟨_, rfl, hvalue⟩, (Except.ok.inj h).symm⟩
  · exact absurd h hmalformed

/-- Every way to have code is among the cases. -/
theorem compiledTo_of_compile
    (h : compile analysis? inLoop path ⟨kind, literal, position, children⟩ = .ok code) :
    CompiledTo analysis? inLoop path position children kind literal code := by
  have hall : ∀ {codes : List Code}, compileAll analysis? inLoop path 0 children = .ok codes →
      ∀ code ∈ codes, ∃ index, ChildTo analysis? inLoop path children index code :=
    childTo_of_compileAll fun i => by rw [Nat.zero_add]
  unfold compile at h
  cases kind with
  | int | float =>
    obtain ⟨value, rfl⟩ := literal_of_number h
    exact .literal value (by decide)
  | string | trueWord | falseWord | nilWord =>
    cases h
    exact .literal _ (by decide)
  | identifier =>
    cases h
    exact .name
  | statements =>
    obtain ⟨codes, hcodes, h⟩ := bind_eq_ok_iff.1 h
    cases h
    exact .statements (hall hcodes)
  | comma | leftParen =>
    obtain ⟨codes, hcodes, h⟩ := bind_eq_ok_iff.1 h
    cases h
    exact .tuple (by decide) (hall hcodes)
  | assign =>
    obtain ⟨names, hnames, h⟩ := bind_eq_ok_iff.1 h
    obtain ⟨value, hvalue, h⟩ := value_of_compile h
    cases h
    exact .assign hnames hvalue
  | default =>
    obtain ⟨names, hnames, h⟩ := bind_eq_ok_iff.1 h
    obtain ⟨value, hvalue, h⟩ := value_of_compile h
    cases h
    exact .default hnames hvalue
  | accumulate =>
    dsimp only at h
    split at h
    · split at h
      · obtain ⟨value, hvalue, h⟩ := bind_eq_ok_iff.1 h
        cases h
        exact .accumulate rfl ⟨_, rfl, hvalue⟩
      · cases h
    · cases h
  | and | or =>
    dsimp only at h
    split at h
    · obtain ⟨left, hleft, h⟩ := bind_eq_ok_iff.1 h
      obtain ⟨right, hright, h⟩ := bind_eq_ok_iff.1 h
      cases h
      exact .logical (by decide) ⟨_, rfl, hleft⟩ ⟨_, rfl, hright⟩
    · cases h
  | not =>
    dsimp only at h
    split at h
    · obtain ⟨operand, hoperand, h⟩ := bind_eq_ok_iff.1 h
      cases h
      exact .unary (Or.inl rfl) ⟨_, rfl, hoperand⟩
    · cases h
  | ifWord =>
    obtain ⟨codes, hcodes, h⟩ := bind_eq_ok_iff.1 h
    split at h
    · cases h
      exact .branches (hall hcodes)
    · cases h
  | whileWord =>
    dsimp only at h
    split at h
    · obtain ⟨condition, hcondition, h⟩ := bind_eq_ok_iff.1 h
      obtain ⟨body, hbody, h⟩ := bind_eq_ok_iff.1 h
      cases h
      exact .loop ⟨_, rfl, hcondition⟩ ⟨_, rfl, hbody⟩
    · cases h
  | returnWord =>
    dsimp only at h
    split at h
    · cases h
      exact .returnNothing
    · obtain ⟨operand, hoperand, h⟩ := bind_eq_ok_iff.1 h
      cases h
      exact .return ⟨_, rfl, hoperand⟩
  | breakWord =>
    dsimp only at h
    split at h
    · next hloop =>
      cases h
      exact .break hloop
    · cases h
  | continueWord =>
    dsimp only at h
    split at h
    · next hloop =>
      cases h
      exact .continue hloop
    · cases h
  | externWord =>
    cases h
    exact .declaration
  | funcWord =>
    dsimp only at h
    split at h
    · cases h
    · next a ha =>
      split at h
      · obtain ⟨body, hbody, h⟩ := bind_eq_ok_iff.1 h
        cases h
        exact .function ha ⟨_, rfl, hbody⟩
      · cases h
  | application =>
    dsimp only at h
    split at h
    · cases h
    · obtain ⟨callee, hcallee, h⟩ := bind_eq_ok_iff.1 h
      obtain ⟨codes, hcodes, h⟩ := bind_eq_ok_iff.1 h
      cases h
      refine .apply ⟨_, rfl, hcallee⟩ (childTo_of_compileAll (fun i => ?_) hcodes)
      rw [Nat.add_comm]
      rfl
  | plus | minus | times | divide | modulo | equal | notEqual | less | lessEqual | greater
  | greaterEqual =>
    -- Each operator has two operands, but a minus may have one.
    dsimp only at h
    split at h
    · next hop =>
      obtain ⟨left, hleft, h⟩ := bind_eq_ok_iff.1 h
      obtain ⟨right, hright, h⟩ := bind_eq_ok_iff.1 h
      cases h
      exact .binary hop ⟨_, rfl, hleft⟩ ⟨_, rfl, hright⟩
    · next hop =>
      obtain ⟨operand, hoperand, h⟩ := bind_eq_ok_iff.1 h
      cases h
      exact .unary (Or.inr hop) ⟨_, rfl, hoperand⟩
    · cases h
  | illegal | finish | period | semicolon | rightParen | leftBracket | rightBracket | leftBrace
  | rightBrace | elseWord | methodCall => cases h

end Node

end Scripting

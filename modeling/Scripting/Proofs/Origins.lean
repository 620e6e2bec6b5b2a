import Scripting.Proofs.Compiling
import Scripting.Proofs.Sites

/-!
# Proofs: where the parts of compiled code come from

Each part of the code of a node was made from a node below, with no function between the two, unless
it is a link of a chain of statements, values or branches. So what holds of all parts of compiled
code is proved by the ways in which a single node has code.
-/

namespace Scripting

namespace Node

/-- The second node is the first one or below it, and no function is between them. -/
inductive Encloses : Path → Node → Path → Node → Prop
  | refl {path node} : Encloses path node path node
  | child {path kind literal position children index child path' node'}
    (hkind : kind ∉ [Kind.funcWord, .methodCall, .period])
    (hc : children[index]? = some child) (h : Encloses (index :: path) child path' node') :
    Encloses path ⟨kind, literal, position, children⟩ path' node'

theorem at?_of_encloses {root node node' : Node} {path path' : Path}
    (h : Encloses path node path' node') (hat : root.at? path = some node) :
    root.at? path' = some node' := by
  induction h with
  | refl => exact hat
  | child _ hc _ ih => exact ih (at?_child hat hc)

end Node

namespace Code

/-- The code only links others to a chain. -/
def Links : Code → Prop
  | .nothing | .sequence _ _ | .both _ _ | .branch _ _ _ _ => True
  | _ => False

end Code

open Node

/-- What the parts of the code of a node are. -/
inductive Origin (analysis? : Path → Option Analysis) (path : Path) (node : Node) (part : Code) :
    Prop
  | link (h : part.Links)
  | node {path' inLoop kind literal position children}
    (hencloses : Encloses path node path' ⟨kind, literal, position, children⟩)
    (hkind : kind ∉ [Kind.statements, .comma, .leftParen, .ifWord])
    (h : CompiledTo analysis? inLoop path' position children kind literal part)

theorem Origin.of_child {analysis? : Path → Option Analysis} {path : Path} {kind : Kind}
    {literal : String} {position : Position} {children : List Node} {index : Nat} {child : Node}
    {part : Code} (hkind : kind ∉ [Kind.funcWord, .methodCall, .period])
    (hc : children[index]? = some child) (h : Origin analysis? (index :: path) child part) :
    Origin analysis? path ⟨kind, literal, position, children⟩ part := by
  cases h with
  | link h => exact .link h
  | node hencloses hkind' h => exact .node (.child hkind hc hencloses) hkind' h

namespace Node

/-- All children are compiled and surveyed, but for those of these kinds. -/
theorem not_mem_of_binaryOp? {kind : Kind} {op : BinaryOp} (hop : kind.binaryOp? = some op) :
    kind ∉ [Kind.funcWord, .methodCall, .period] ∧
      kind ∉ [Kind.statements, .comma, .leftParen, .ifWord] := by
  constructor
  · intro hkind
    simp only [List.mem_cons, List.not_mem_nil, or_false] at hkind
    rcases hkind with rfl | rfl | rfl <;> cases hop
  · intro hkind
    simp only [List.mem_cons, List.not_mem_nil, or_false] at hkind
    rcases hkind with rfl | rfl | rfl | rfl <;> cases hop

/-- Every part of the code of a node comes from a node below it in the same function. -/
theorem origin_of_compile {analysis? : Path → Option Analysis} (node : Node) :
    ∀ {path : Path} {inLoop : Bool} {code : Code}, node.compile analysis? inLoop path = .ok code →
      code.Every (Origin analysis? path node) := by
  induction node using Node.induct with
  | h kind literal position children ih =>
    intro path inLoop code hc
    have hcode := compiledTo_of_compile hc
    have hchild : kind ∉ [Kind.funcWord, .methodCall, .period] →
        ∀ {inLoop : Bool} {index : Nat} {code : Code},
          ChildTo analysis? inLoop path children index code →
          code.Every (Origin analysis? path ⟨kind, literal, position, children⟩) := by
      rintro hkind inLoop index code ⟨child, hi, hcode⟩
      exact (ih child (List.mem_of_getElem? hi) hcode).mono fun _ h => h.of_child hkind hi
    have hall : kind ∉ [Kind.funcWord, .methodCall, .period] → ∀ {codes : List Code},
        (∀ code ∈ codes, ∃ index, ChildTo analysis? inLoop path children index code) →
        ∀ code ∈ codes,
          code.Every (Origin analysis? path ⟨kind, literal, position, children⟩) := by
      intro hkind codes h code hmem
      obtain ⟨index, hcode⟩ := h code hmem
      exact hchild hkind hcode
    have hlink : ∀ {code : Code}, code.Links →
        Origin analysis? path ⟨kind, literal, position, children⟩ code := fun h => .link h
    have htuple : ∀ {codes : List Code},
        (∀ code ∈ codes,
          code.Every (Origin analysis? path ⟨kind, literal, position, children⟩)) →
        (Code.tuple codes).Every (Origin analysis? path ⟨kind, literal, position, children⟩) :=
      Code.of_tuple ⟨hlink trivial, trivial⟩
        fun _ _ hfirst hrest => ⟨hlink trivial, hfirst, hrest⟩
    -- A node of these kinds has code of its own beside that of its children.
    have hown : kind ∉ [Kind.statements, .comma, .leftParen, .ifWord] →
        Origin analysis? path ⟨kind, literal, position, children⟩ code :=
      fun hkind => .node .refl hkind hcode
    cases hcode with
    | literal value hkind =>
      refine ⟨hown ?_, trivial⟩
      simp only [List.mem_cons, List.not_mem_nil, or_false] at hkind
      rcases hkind with rfl | rfl | rfl | rfl | rfl | rfl <;> decide
    | name => exact ⟨hown (by decide), trivial⟩
    | statements h =>
      exact Code.of_statements ⟨hlink trivial, trivial⟩
        (fun _ _ hfirst hrest => ⟨hlink trivial, hfirst, hrest⟩) (hall (by decide) h)
    | tuple hkind h =>
      have hkind' : kind ∉ [Kind.funcWord, .methodCall, .period] := by
        rcases hkind with rfl | rfl <;> decide
      exact htuple (hall hkind' h)
    | assign _ h | default _ h | accumulate _ h =>
      exact ⟨hown (by decide), hchild (by decide) h⟩
    | logical hkind hleft hright =>
      have hkind' : kind ∉ [Kind.funcWord, .methodCall, .period] := by
        rcases hkind with rfl | rfl <;> decide
      refine ⟨hown ?_, hchild hkind' hleft, hchild hkind' hright⟩
      rcases hkind with rfl | rfl <;> decide
    | unary hkind h =>
      rcases hkind with rfl | hop
      · exact ⟨hown (by decide), hchild (by decide) h⟩
      · exact ⟨hown (not_mem_of_binaryOp? hop).2, hchild (not_mem_of_binaryOp? hop).1 h⟩
    | binary hop hleft hright =>
      obtain ⟨hkind, hkind'⟩ := not_mem_of_binaryOp? hop
      exact ⟨hown hkind', hchild hkind hleft, hchild hkind hright⟩
    | branches h =>
      exact Code.of_branches position ⟨hlink trivial, trivial⟩
        (fun _ _ _ hcondition hyes hno => ⟨hlink trivial, hcondition, hyes, hno⟩)
        (hall (by decide) h)
    | loop hcondition hbody =>
      exact ⟨hown (by decide), hchild (by decide) hcondition, hchild (by decide) hbody⟩
    | returnNothing => exact ⟨hown (by decide), hlink trivial, trivial⟩
    | «return» h => exact ⟨hown (by decide), hchild (by decide) h⟩
    | «break» | «continue» => exact ⟨hown (by decide), trivial⟩
    | declaration => exact ⟨hlink trivial, trivial⟩
    | function => exact ⟨hown (by decide), trivial⟩
    | apply hcallee h =>
      exact ⟨hown (by decide), hchild (by decide) hcallee, htuple (hall (by decide) h)⟩

end Node

end Scripting

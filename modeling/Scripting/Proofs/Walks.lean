import Scripting.Proofs.Sites

/-!
# Proofs: ways through a tree

The survey and the compiler go down from a node to some of its children only. A relation between the
kind of a node and the number of a child says which, and a node is reached when each step on the way
to it is allowed.
-/

namespace Scripting

/-! ## Steps -/

namespace Kind

/-- Does the survey go from a node of the kind to its child of the number? Of a function it goes to
the body, of a method call to the arguments and of an access to the object. -/
def SurveysChild (kind : Kind) (index : Nat) : Prop :=
  match kind with
  | .funcWord => index = 2
  | .methodCall => 2 ≤ index
  | .period => index = 0
  | _ => True

/-- Does the survey go there without leaving the function that the node stands in? -/
def SharesChild (kind : Kind) (index : Nat) : Prop :=
  kind ≠ .funcWord ∧ kind.SurveysChild index

theorem sharesChild_of_not_mem {kind : Kind} (h : kind ∉ [Kind.funcWord, .methodCall, .period])
    (index : Nat) : kind.SharesChild index := by
  cases kind with
  | funcWord | methodCall | period => exact absurd (by decide) h
  | _ => exact ⟨by decide, trivial⟩

end Kind

namespace Node

/-- The node is the one at the path below the root, and `step` allows each step on the way, given
the kind of the node that it leaves and the number of the child. -/
inductive Reaches (step : Kind → Nat → Prop) (root : Node) : Path → Node → Prop
  | root : Reaches step root [] root
  | child {path node index child} (h : Reaches step root path node)
    (hstep : step node.kind index) (hc : node.children[index]? = some child) :
    Reaches step root (index :: path) child

variable {step step' : Kind → Nat → Prop} {root node below : Node} {path rel : Path}

theorem Reaches.at? (h : root.Reaches step path node) : root.at? path = some node := by
  induction h with
  | root => rfl
  | child _ _ hc ih => exact at?_child ih hc

theorem Reaches.mono (h : root.Reaches step path node)
    (hstep : ∀ kind index, step kind index → step' kind index) :
    root.Reaches step' path node := by
  induction h with
  | root => exact .root
  | child _ hallowed hc ih => exact .child ih (hstep _ _ hallowed) hc

theorem Reaches.trans (h : root.Reaches step path node) (h' : node.Reaches step rel below) :
    root.Reaches step (rel ++ path) below := by
  induction h' with
  | root => exact h
  | child _ hstep hc ih => exact .child ih hstep hc

/-- A way to a child and on from there is a way from the node. -/
theorem Reaches.of_child {index : Nat} {child : Node} (hstep : step root.kind index)
    (hc : root.children[index]? = some child) (h : child.Reaches step rel below) :
    root.Reaches step (rel ++ [index]) below :=
  Reaches.trans (.child .root hstep hc) h

theorem Reaches.cases_head (h : root.Reaches step path node) :
    (path = [] ∧ node = root) ∨ ∃ index child rel, step root.kind index ∧
      root.children[index]? = some child ∧ child.Reaches step rel node ∧ path = rel ++ [index] := by
  induction h with
  | root => exact .inl ⟨rfl, rfl⟩
  | @child path node index child h hstep hc ih =>
    obtain ⟨rfl, rfl⟩ | ⟨first, between, rel, hfirst, hbetween, hrel, rfl⟩ := ih
    · exact .inr ⟨index, child, [], hstep, hc, .root, rfl⟩
    · exact .inr ⟨first, between, index :: rel, hfirst, hbetween, .child hrel hstep hc, rfl⟩

/-- A way through a node is a way to the node and one on from there. -/
theorem Reaches.of_append : ∀ {rel : Path} {below : Node}, root.Reaches step (rel ++ path) below →
    ∃ node, root.Reaches step path node ∧ node.Reaches step rel below
  | [], below, h => ⟨below, h, .root⟩
  | _ :: _, _, .child h hstep hc =>
    have ⟨node, hnode, hrel⟩ := h.of_append
    ⟨node, hnode, .child hrel hstep hc⟩

theorem at?_append : ∀ rel : Path, root.at? (rel ++ path) = (root.at? path).bind (·.at? rel)
  | [] => by cases h : root.at? path <;> simp [Node.at?, h]
  | index :: rel => by
    rw [List.cons_append, Node.at?, at?_append rel]
    cases root.at? path <;> rfl

end Node

end Scripting

import Scripting.Proofs.Grammar
import Scripting.Proofs.Sources
import Scripting.Proofs.Spelling

/-!
# Proofs: the shapes of parsed trees

Every node that the parser makes has as many children as the construct needs, and the text of a
number has the digits of one. So all that the compiler can object to in a parsed tree is what the
tree says, not how it is put together.
-/

namespace Scripting

/-- The numbers of children that a node of a kind has in a parsed tree. Kinds of tokens that only
separate others make no node. -/
def Kind.Takes (kind : Kind) (count : Nat) : Prop :=
  match kind with
  | .identifier | .int | .float | .string | .trueWord | .falseWord | .nilWord | .breakWord
  | .continueWord => count = 0
  | .not => count = 1
  | .minus => count = 1 ∨ count = 2
  | .assign | .default | .accumulate | .and | .or | .plus | .times | .divide | .modulo | .equal
  | .notEqual | .less | .lessEqual | .greater | .greaterEqual | .whileWord => count = 2
  | .funcWord => count = 3
  | .returnWord => count ≤ 1
  | .application => 1 ≤ count
  | .ifWord => 2 ≤ count
  | .statements | .comma | .leftParen | .externWord | .leftBracket | .period | .methodCall => True
  | .illegal | .finish | .semicolon | .rightParen | .rightBracket | .leftBrace | .rightBrace
  | .elseWord => False

namespace Node

/-- The node has a text and a number of children as a parsed node of its kind has. -/
def Regular (node : Node) : Prop :=
  node.kind.Spells node.literal.toList ∧ node.kind.Takes node.children.length

/-- The node and all nodes below are regular. -/
abbrev Shaped : Node → Prop :=
  Each Regular

/-- What the parser builds from tokens whose texts fit their kinds is shaped. -/
theorem Built.shaped {node : Node} (h : node.Built Token.Spelled) : node.Shaped := by
  induction h with
  | leaf hT hkind =>
    refine .node ⟨hT, ?_⟩ nofun
    simp only [List.mem_cons, List.not_mem_nil, or_false] at hkind
    rcases hkind with rfl | rfl | rfl | rfl | rfl | rfl | rfl | rfl | rfl <;> rfl
  | unit hT => exact .node ⟨hT, trivial⟩ nofun
  | sign hT hkind _ ih =>
    refine .node ⟨hT, ?_⟩ (List.forall_mem_singleton.2 ih)
    rcases hkind with rfl | rfl
    · exact rfl
    · exact Or.inl rfl
  | @pair kind _ _ _ _ hT hkind _ _ ihleft ihright =>
    refine .node ⟨hT, ?_⟩ (List.forall_mem_cons.2 ⟨ihleft, List.forall_mem_singleton.2 ihright⟩)
    cases kind with
    | minus => exact Or.inr rfl
    | leftBracket => trivial
    | assign | default | accumulate | and | or | plus | times | divide | modulo | equal
    | notEqual | less | lessEqual | greater | greaterEqual => rfl
    | _ => exact absurd hkind (by decide)
  | field hT hname _ ih =>
    exact .node ⟨hT, trivial⟩ (List.forall_mem_cons.2
      ⟨ih, List.forall_mem_singleton.2 (.node ⟨hname, rfl⟩ nofun)⟩)
  | list hT _ _ ih => exact .node ⟨hT, trivial⟩ ih
  | conditional hT _ _ ih => exact .node ⟨hT, Nat.le_add_left _ _⟩ ih
  | loop hT _ _ _ ihcondition ih =>
    exact .node ⟨hT, rfl⟩ (List.forall_mem_cons.2 ⟨ihcondition, List.forall_mem_singleton.2 ih⟩)
  | function hT _ _ _ _ ihparameters ihchannels ih =>
    refine .node ⟨hT, rfl⟩ ?_
    simp only [List.forall_mem_cons]
    exact ⟨.node ⟨trivial, trivial⟩ ihparameters, .node ⟨trivial, trivial⟩ ihchannels, ih, nofun⟩
  | bareReturn hT => exact .node ⟨hT, Nat.zero_le 1⟩ nofun
  | valueReturn hT _ ih => exact .node ⟨hT, Nat.le_refl 1⟩ (List.forall_mem_singleton.2 ih)
  | declaration hT _ ih => exact .node ⟨hT, trivial⟩ ih
  | application _ _ ih => exact .node ⟨trivial, Nat.le_add_left _ _⟩ ih
  | method hname _ ih =>
    obtain ⟨hobject, harguments⟩ := List.forall_mem_cons.1 ih
    exact .node ⟨trivial, trivial⟩ (List.forall_mem_cons.2
      ⟨hobject, List.forall_mem_cons.2 ⟨.node ⟨hname, rfl⟩ nofun, harguments⟩⟩)
  | statements _ ih => exact .node ⟨trivial, trivial⟩ ih

end Node

theorem Stream.spelled_ofTokens {tokens : List Token} (h : ∀ t ∈ tokens, t.Spelled) :
    (ofTokens tokens).All Token.Spelled := by
  refine ⟨fun t ht => h t ((List.takeWhile_sublist _).mem ht), ?_⟩
  unfold ofTokens
  cases hfind : tokens.find? (·.kind = .finish) with
  | none => exact trivial
  | some t => exact h t (List.mem_of_find?_eq_some hfind)

/-- The tree of a source is shaped. -/
theorem Session.Parses.shaped {source : String} {root : Node} (h : Parses source root) :
    root.Shaped := by
  obtain ⟨tokens, hscan, hparse⟩ := h
  exact (Node.block_of_ofTokens hparse
    (Stream.spelled_ofTokens (Token.spelled_of_scan hscan))).2.shaped

end Scripting

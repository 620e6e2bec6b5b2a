import Scripting.Proofs.Derivations

/-!
# Proofs: the grammar of parsed trees

The type of trees admits nodes with any children. Those that the parser builds follow a grammar,
which `Node.Built` spells out construct by construct, and it builds no others, whatever tokens it is
given.
-/

namespace Scripting

/-! ## The grammar -/

namespace Node

/-- Conditions, each with a block behind it, and at the end perhaps another block. -/
inductive Branches : List Node → Prop
  | none : Branches []
  | last {block} (hblock : block.kind = .statements) : Branches [block]
  | test {condition block rest} (hblock : block.kind = .statements) (h : Branches rest) :
    Branches (condition :: block :: rest)

/-- The trees that the parser builds from tokens that satisfy `T`. -/
inductive Built (T : Token → Prop) : Node → Prop
  | leaf {kind literal position} (hT : T ⟨kind, literal, position⟩)
    (hkind : kind ∈ [Kind.identifier, .int, .float, .string, .trueWord, .falseWord, .nilWord,
      .breakWord, .continueWord]) :
    Built T ⟨kind, literal, position, []⟩
  | unit {literal position} (hT : T ⟨.leftParen, literal, position⟩) :
    Built T ⟨.leftParen, literal, position, []⟩
  | sign {kind literal position operand} (hT : T ⟨kind, literal, position⟩)
    (hkind : kind = .not ∨ kind = .minus) (hoperand : Built T operand) :
    Built T ⟨kind, literal, position, [operand]⟩
  | pair {kind literal position left right} (hT : T ⟨kind, literal, position⟩)
    (hkind : kind ∈ [Kind.assign, .default, .accumulate, .and, .or, .plus, .minus, .times, .divide,
      .modulo, .equal, .notEqual, .less, .lessEqual, .greater, .greaterEqual, .leftBracket])
    (hleft : Built T left) (hright : Built T right) :
    Built T ⟨kind, literal, position, [left, right]⟩
  | field {literal position object name place} (hT : T ⟨.period, literal, position⟩)
    (hname : T ⟨.identifier, name, place⟩) (hobject : Built T object) :
    Built T ⟨.period, literal, position, [object, ⟨.identifier, name, place, []⟩]⟩
  | list {literal position first second rest} (hT : T ⟨.comma, literal, position⟩)
    (hfirst : first.kind ≠ .comma) (h : ∀ item ∈ first :: second :: rest, Built T item) :
    Built T ⟨.comma, literal, position, first :: second :: rest⟩
  | conditional {literal position condition block rest} (hT : T ⟨.ifWord, literal, position⟩)
    (hbranches : Branches (condition :: block :: rest))
    (h : ∀ child ∈ condition :: block :: rest, Built T child) :
    Built T ⟨.ifWord, literal, position, condition :: block :: rest⟩
  | loop {literal position condition block} (hT : T ⟨.whileWord, literal, position⟩)
    (hblock : block.kind = .statements) (hcondition : Built T condition) (h : Built T block) :
    Built T ⟨.whileWord, literal, position, [condition, block]⟩
  | function {literal position place place' parameters channels block}
    (hT : T ⟨.funcWord, literal, position⟩) (hblock : block.kind = .statements)
    (hparameters : ∀ item ∈ parameters, Built T item)
    (hchannels : ∀ item ∈ channels, Built T item) (h : Built T block) :
    Built T ⟨.funcWord, literal, position, [⟨.leftParen, "params", place, parameters⟩,
      ⟨.leftBracket, "channels", place', channels⟩, block]⟩
  | bareReturn {literal position} (hT : T ⟨.returnWord, literal, position⟩) :
    Built T ⟨.returnWord, literal, position, []⟩
  | valueReturn {literal position operand} (hT : T ⟨.returnWord, literal, position⟩)
    (hoperand : Built T operand) : Built T ⟨.returnWord, literal, position, [operand]⟩
  | declaration {literal position first rest} (hT : T ⟨.externWord, literal, position⟩)
    (h : ∀ item ∈ first :: rest, Built T item) :
    Built T ⟨.externWord, literal, position, first :: rest⟩
  | application {position callee arguments} (hcallee : callee.kind ≠ .period)
    (h : ∀ child ∈ callee :: arguments, Built T child) :
    Built T ⟨.application, Kind.application.name, position, callee :: arguments⟩
  | method {position object name place arguments} (hname : T ⟨.identifier, name, place⟩)
    (h : ∀ child ∈ object :: arguments, Built T child) :
    Built T ⟨.methodCall, Kind.methodCall.name, position,
      object :: ⟨.identifier, name, place, []⟩ :: arguments⟩
  | statements {position nodes} (h : ∀ node ∈ nodes, Built T node) :
    Built T ⟨.statements, Kind.statements.name, position, nodes⟩

/-- The node is a block of statements. -/
def Block (T : Token → Prop) (node : Node) : Prop :=
  node.kind = .statements ∧ node.Built T

end Node

/-! ## Tokens of a stream -/

namespace Stream

/-- All tokens that are left satisfy `T`. -/
def All (T : Token → Prop) (s : Stream) : Prop :=
  (∀ t ∈ s.rest, T t) ∧ T s.finish

variable {T : Token → Prop} {s : Stream}

theorem All.of_has (h : s.All T) {t : Token} (ht : s.Has t) : T t := by
  rcases ht with ht | rfl
  · exact h.1 t ht
  · exact h.2

end Stream

namespace Node

/-! ## Derived nodes -/

variable {phrase : Phrase} {taken : List Token} {nodes : List Node}

theorem Derives.ne_nil_of_items (h : Derives .items taken nodes) : nodes ≠ [] := by
  cases h <;> exact List.cons_ne_nil _ _

theorem Derives.kind_of_block {body : Node} (h : Derives .block taken [body]) :
    body.kind = .statements := by
  cases h
  rfl

theorem Derives.branches (h : Derives phrase taken nodes) (hphrase : phrase = .alternatives) :
    Branches nodes := by
  induction h with
  | noBranch => exact .none
  | lastBranch _ hbody => exact .last hbody.kind_of_block
  | branch _ _ _ hbody _ _ _ ih => exact .test hbody.kind_of_block (ih rfl)
  | _ => cases hphrase

variable {T : Token → Prop}

theorem built_applied {paren : Token} {callee : Node} {arguments : List Node}
    (hcallee : callee.Built T) (harguments : ∀ node ∈ arguments, node.Built T) :
    (applied paren callee arguments).Built T := by
  unfold applied
  split
  · cases hcallee with
    | field _ hname hobject =>
      exact .method hname (List.forall_mem_cons.2 ⟨hobject, harguments⟩)
    | pair _ hkind => exact absurd hkind (by decide)
  · next hperiod =>
    refine .application (fun hkind => ?_) (List.forall_mem_cons.2 ⟨hcallee, harguments⟩)
    -- An access has an object and a field.
    cases hcallee with
    | field => exact hperiod _ _ _ _ rfl
    | leaf _ hmem | pair _ hmem =>
      cases hkind
      exact absurd hmem (by decide)
    | sign _ hsign => rcases hsign with rfl | rfl <;> cases hkind
    | _ => cases hkind

/-- A list that is continued stays a list, whose first item is none. -/
theorem built_comma {literal : String} {position : Position} {left item : Node}
    (hT : T ⟨.comma, literal, position⟩) (hleft : left.Built T) (hitem : item.Built T) :
    Built T ⟨.comma, literal, position, commaItems left ++ [item]⟩ := by
  unfold commaItems
  split
  · next hkind =>
    cases hleft with
    | @list _ _ first second rest _ hfirst h =>
      exact .list hT hfirst (List.forall_mem_append.2 ⟨h, List.forall_mem_singleton.2 hitem⟩)
    | leaf _ hmem | pair _ hmem =>
      cases hkind
      exact absurd hmem (by decide)
    | sign _ hsign => rcases hsign with rfl | rfl <;> cases hkind
    | _ => cases hkind
  · next hkind =>
    exact .list hT hkind (List.forall_mem_cons.2 ⟨hleft, List.forall_mem_singleton.2 hitem⟩)

/-- The nodes that are derived from tokens that satisfy `T` are built from them. -/
theorem Derives.built (h : Derives phrase taken nodes) (hT : ∀ t ∈ taken, T t) :
    ∀ node ∈ nodes, node.Built T := by
  -- A token of a kind that is known makes the node of that kind.
  have hnode : ∀ {t : Token} {kind : Kind} {children : List Node}, t.kind = kind → T t →
      (T ⟨kind, t.lexeme, t.position⟩ → Built T ⟨kind, t.lexeme, t.position, children⟩) →
      ∀ node ∈ [ofToken t children], Built T node := by
    rintro t _ children rfl ht h
    exact List.forall_mem_singleton.2 (h ht)
  have hone : ∀ {node : Node}, (∀ child ∈ [node], Built T child) → node.Built T :=
    List.forall_mem_singleton.1
  induction h with
  | leaf hkind =>
    exact hnode rfl (hT _ List.mem_cons_self) fun ht => .leaf ht hkind
  | unit hkind => exact hnode hkind (hT _ List.mem_cons_self) .unit
  | group _ _ _ ih =>
    obtain ⟨-, hT⟩ := List.forall_mem_cons.1 hT
    exact ih (List.forall_mem_append.1 hT).1
  | sign hkind _ ih =>
    obtain ⟨ht, hT⟩ := List.forall_mem_cons.1 hT
    exact hnode rfl ht fun ht => .sign ht hkind (hone (ih hT))
  | bareReturn hkind => exact hnode hkind (hT _ List.mem_cons_self) .bareReturn
  | valueReturn hkind _ ih =>
    obtain ⟨ht, hT⟩ := List.forall_mem_cons.1 hT
    exact hnode hkind ht fun ht => .valueReturn ht (hone (ih hT))
  | declaration hkind hitems ih =>
    obtain ⟨ht, hT⟩ := List.forall_mem_cons.1 hT
    obtain ⟨first, rest, rfl⟩ := List.exists_cons_of_ne_nil hitems.ne_nil_of_items
    exact hnode hkind ht fun ht => .declaration ht (ih hT)
  | function hkind _ _ _ hbody _ ihparameters ihchannels ihbody =>
    simp only [List.forall_mem_cons, List.forall_mem_append] at hT
    obtain ⟨ht, -, hp, hc, hb⟩ := hT
    exact hnode hkind ht fun ht =>
      .function ht hbody.kind_of_block (ihparameters hp) (ihchannels hc) (hone (ihbody hb))
  | conditional hkind _ hbody hrest ihcondition ihbody ihrest =>
    simp only [List.forall_mem_cons, List.forall_mem_append] at hT
    obtain ⟨ht, hc, hb, hr⟩ := hT
    refine hnode hkind ht fun ht => .conditional ht
      (.test hbody.kind_of_block (hrest.branches rfl)) (List.forall_mem_cons.2 ?_)
    exact ⟨hone (ihcondition hc), List.forall_mem_cons.2 ⟨hone (ihbody hb), ihrest hr⟩⟩
  | loop hkind _ hbody ihcondition ihbody =>
    simp only [List.forall_mem_cons, List.forall_mem_append] at hT
    obtain ⟨ht, hc, hb⟩ := hT
    exact hnode hkind ht fun ht =>
      .loop ht hbody.kind_of_block (hone (ihcondition hc)) (hone (ihbody hb))
  | operation hkind _ _ ihleft ihright =>
    simp only [List.forall_mem_cons, List.forall_mem_append] at hT
    obtain ⟨hl, ht, hr⟩ := hT
    have hpair := List.mem_append_left [Kind.leftBracket] hkind
    exact hnode rfl ht fun ht => .pair ht hpair (hone (ihleft hl)) (hone (ihright hr))
  | comma hkind _ _ ihleft ihitem =>
    simp only [List.forall_mem_cons, List.forall_mem_append] at hT
    obtain ⟨hl, ht, hr⟩ := hT
    exact hnode hkind ht fun ht => built_comma ht (hone (ihleft hl)) (hone (ihitem hr))
  | application _ _ _ ihcallee iharguments =>
    simp only [List.forall_mem_cons, List.forall_mem_append] at hT
    obtain ⟨hl, -, hr⟩ := hT
    exact List.forall_mem_singleton.2 (built_applied (hone (ihcallee hl)) (iharguments hr))
  | index hkind _ _ _ ihleft ihinner =>
    simp only [List.forall_mem_cons, List.forall_mem_append] at hT
    obtain ⟨hl, ht, hr, -⟩ := hT
    exact hnode hkind ht fun ht => .pair ht (by decide) (hone (ihleft hl)) (hone (ihinner hr))
  | @field t name _ _ hkind hname _ ihleft =>
    simp only [List.forall_mem_cons, List.forall_mem_append] at hT
    obtain ⟨hl, ht, hplace, -⟩ := hT
    obtain ⟨_, lexeme, place⟩ := name
    cases hname
    exact hnode hkind ht fun ht => .field ht hplace (hone (ihleft hl))
  | item _ ih => exact ih hT
  | moreItems _ _ _ ih ihmore =>
    simp only [List.forall_mem_cons, List.forall_mem_append] at hT
    obtain ⟨hfirst, -, hmore⟩ := hT
    exact List.forall_mem_cons.2 ⟨hone (ih hfirst), ihmore hmore⟩
  | emptyList | nothing | noBranch | noChannels => exact List.forall_mem_nil _
  | list _ _ _ ih => exact ih (List.forall_mem_append.1 hT).1
  | semicolon _ _ ih | someChannels _ _ ih | lastBranch _ _ ih =>
    exact ih (List.forall_mem_cons.1 hT).2
  | statement _ _ ih ihmore =>
    obtain ⟨hfirst, hmore⟩ := List.forall_mem_append.1 hT
    exact List.forall_mem_cons.2 ⟨hone (ih hfirst), ihmore hmore⟩
  | block _ _ _ _ ih =>
    obtain ⟨-, hT⟩ := List.forall_mem_cons.1 hT
    exact List.forall_mem_singleton.2 (.statements (ih (List.forall_mem_append.1 hT).1))
  | branch _ _ _ _ _ ihcondition ihbody ihrest =>
    simp only [List.forall_mem_cons, List.forall_mem_append] at hT
    obtain ⟨-, -, hc, hb, hr⟩ := hT
    exact List.forall_mem_cons.2
      ⟨hone (ihcondition hc), List.forall_mem_cons.2 ⟨hone (ihbody hb), ihrest hr⟩⟩

/-- The parser builds trees of the grammar and no others. -/
theorem block_of_ofTokens {tokens : List Token} {root : Node} (h : ofTokens tokens = .ok root)
    (htokens : (Stream.ofTokens tokens).All T) : root.Block T := by
  obtain ⟨children, hchildren, rfl⟩ := derives_of_ofTokens h
  exact ⟨rfl, .statements (hchildren.built htokens.1)⟩

end Node

end Scripting

import Scripting.Proofs.Walks

/-!
# Proofs: what the survey of a body notes

A body is the part of a tree between one function and those inside it. The survey of a node notes
what the nodes of its body note by themselves, and nothing else.
-/

namespace Scripting

namespace Node

/-! ## Notes of single nodes -/

/-- What the survey notes for a node at the path, its children left out. -/
inductive Notes (path : Path) : Node → Survey → Prop
  | function {literal position parameters channels body rest ps cs s}
    (hparameters : parameters.nameList = .ok ps) (hchannels : channels.nameList = .ok cs)
    (hbody : body.survey (2 :: path) = .ok s) :
    Notes path ⟨.funcWord, literal, position, parameters :: channels :: body :: rest⟩
      (.ofFunction path ps cs s)
  | object {literal position object rest name} (hobject : object.leftmostName = .ok name) :
    Notes path ⟨.methodCall, literal, position, object :: rest⟩ (.ofIdentifier name)
  | assignment {kind literal position target rest names}
    (hkind : kind = .assign ∨ kind = .default ∨ kind = .accumulate)
    (hnames : target.listed.mapM leftmostName = .ok names) :
    Notes path ⟨kind, literal, position, target :: rest⟩ (.ofAssigned names)
  | declaration {literal position children names} (hnames : children.mapM declaredName = .ok names) :
    Notes path ⟨.externWord, literal, position, children⟩ (.ofExterns names)
  | name {x position children} : Notes path ⟨.identifier, x, position, children⟩ (.ofIdentifier x)

end Node

namespace Survey

/-- The survey is one of those that were put together. -/
inductive PartOf (s : Survey) : Survey → Prop
  | refl : PartOf s s
  | left {a} (h : PartOf s a) (b : Survey) : PartOf s (a ++ b)
  | right {b} (h : PartOf s b) (a : Survey) : PartOf s (a ++ b)

theorem PartOf.trans {a b c : Survey} (h : a.PartOf b) (h' : b.PartOf c) : a.PartOf c := by
  induction h' with
  | refl => exact h
  | left _ c ih => exact .left ih c
  | right _ c ih => exact .right ih c

/-- What is in a survey of parts is in that of one of the parts. -/
structure Additive (M : Survey → Prop) : Prop where
  empty : ¬ M .empty
  append : ∀ a b, M (a ++ b) ↔ M a ∨ M b

end Survey

namespace Node

section

variable {M : Survey → Prop} {path : Path} {kind : Kind} {literal : String} {position : Position}
  {children : List Node} {own own' s : Survey}

theorem Notes.unique {node : Node} (h : Notes path node own) (h' : Notes path node own') :
    own = own' := by
  cases h with
  | function hps hcs hbody =>
    cases h' with
    | function hps' hcs' hbody' =>
      cases hps.symm.trans hps'
      cases hcs.symm.trans hcs'
      cases hbody.symm.trans hbody'
      rfl
    | assignment hkind => simp at hkind
  | object hobject =>
    cases h' with
    | object hobject' =>
      cases hobject.symm.trans hobject'
      rfl
    | assignment hkind => simp at hkind
  | assignment hkind hnames =>
    cases h' with
    | assignment _ hnames' =>
      cases hnames.symm.trans hnames'
      rfl
    | _ => simp at hkind
  | declaration hnames =>
    cases h' with
    | declaration hnames' =>
      cases hnames.symm.trans hnames'
      rfl
    | assignment hkind => simp at hkind
  | name =>
    cases h' with
    | name => rfl
    | assignment hkind => simp at hkind

/-- Nodes of other kinds note nothing. -/
theorem Notes.mem_kinds (h : Notes path ⟨kind, literal, position, children⟩ own) :
    kind ∈ [Kind.funcWord, .methodCall, .assign, .default, .accumulate, .externWord,
      .identifier] := by
  cases h with
  | assignment hkind => rcases hkind with rfl | rfl | rfl <;> decide
  | _ => decide

/-- What is in the survey of children is in that of one of them. -/
theorem holds_row_iff (hM : Survey.Additive M) {nodes : List Node} : ∀ {index : Nat} {s : Survey},
    (∀ i, nodes[i]? = children[index + i]?) → surveys path index nodes = .ok s →
      (M s ↔ ∃ i child s', index ≤ i ∧ children[i]? = some child ∧
        Node.survey (i :: path) child = .ok s' ∧ M s') := by
  induction nodes with
  | nil =>
    intro index s hnodes h
    rw [surveys] at h
    cases h
    refine iff_of_false hM.empty ?_
    rintro ⟨i, child, s', hle, hc, -⟩
    have hnone := hnodes (i - index)
    rw [Nat.add_sub_cancel' hle, hc] at hnone
    cases hnone
  | cons first rest ih =>
    intro index s hnodes h
    obtain ⟨a, b, ha, hb, rfl⟩ := surveys_cons h
    have hrest : ∀ i, rest[i]? = children[index + 1 + i]? := fun i => by
      rw [Nat.add_right_comm, Nat.add_assoc]
      exact hnodes (i + 1)
    rw [hM.append, ih hrest hb]
    constructor
    · rintro (hm | ⟨i, child, s', hle, hc, hs', hm⟩)
      · exact ⟨index, first, a, Nat.le_refl _, (hnodes 0).symm, ha, hm⟩
      · exact ⟨i, child, s', Nat.le_of_succ_le hle, hc, hs', hm⟩
    · rintro ⟨i, child, s', hle, hc, hs', hm⟩
      rcases Nat.eq_or_lt_of_le hle with rfl | hlt
      · cases (hnodes 0).trans hc
        cases ha.symm.trans hs'
        exact Or.inl hm
      · exact Or.inr ⟨i, child, s', hlt, hc, hs', hm⟩

/-- What is in the survey of a node is noted for the node itself, or is in the survey of a child in
the same body. -/
theorem holds_step_iff (hM : Survey.Additive M) {node : Node} (h : node.survey path = .ok s) :
    M s ↔ (∃ own, Notes path node own ∧ M own) ∨ ∃ i child s', node.kind.SharesChild i ∧
      node.children[i]? = some child ∧ Node.survey (i :: path) child = .ok s' ∧ M s' := by
  obtain ⟨kind, literal, position, children⟩ := node
  have hown : ∀ {own}, Notes path ⟨kind, literal, position, children⟩ own →
      ((∃ own', Notes path ⟨kind, literal, position, children⟩ own' ∧ M own') ↔ M own) :=
    fun h => ⟨fun ⟨_, h', hm⟩ => h.unique h' ▸ hm, fun hm => ⟨_, h, hm⟩⟩
  have hsilent : kind ∉ [Kind.funcWord, .methodCall, .assign, .default, .accumulate, .externWord,
      .identifier] → ¬ ∃ own, Notes path ⟨kind, literal, position, children⟩ own ∧ M own := by
    rintro hkind ⟨own, hnotes, -⟩
    exact hkind hnotes.mem_kinds
  have hrow : ∀ {index : Nat} {nodes : List Node} {b : Survey},
      (∀ i, kind.SharesChild i ↔ index ≤ i) → (∀ i, nodes[i]? = children[index + i]?) →
        surveys path index nodes = .ok b →
          (M b ↔ ∃ i child s', kind.SharesChild i ∧ children[i]? = some child ∧
            Node.survey (i :: path) child = .ok s' ∧ M s') := by
    intro index nodes b hshares hnodes hb
    rw [holds_row_iff hM hnodes hb]
    simp only [hshares]
  have hall : ∀ {b : Survey}, (∀ i, kind.SharesChild i) → surveys path 0 children = .ok b →
      (M b ↔ ∃ i child s', kind.SharesChild i ∧ children[i]? = some child ∧
        Node.survey (i :: path) child = .ok s' ∧ M s') :=
    fun hshares => hrow (fun i => iff_of_true (hshares i) (Nat.zero_le i)) fun i => by
      rw [Nat.zero_add]
  cases surveyed_of_survey h with
  | function hps hcs hbody =>
    rw [hown (.function hps hcs hbody)]
    exact (or_iff_left fun ⟨_, _, _, hshares, _⟩ => hshares.1 rfl).symm
  | object hobject =>
    have hnone := @hrow 2 [] .empty (fun i => and_iff_right (by decide))
      (fun i => by rw [Nat.add_comm]; rfl) (by rw [surveys])
    rw [hown (.object hobject), ← hnone]
    exact (or_iff_left hM.empty).symm
  | method hobject hb =>
    rw [hM.append, hown (.object hobject), hrow (fun i => and_iff_right (by decide)) _ hb]
    exact fun i => by rw [Nat.add_comm]; rfl
  | assignment hkind hnames hb =>
    rw [hM.append, hown (.assignment hkind hnames), hall (fun i => ?_) hb]
    rcases hkind with rfl | rfl | rfl <;> exact ⟨by decide, trivial⟩
  | declaration hnames hb =>
    rw [hM.append, hown (.declaration hnames), hall (fun i => ⟨by decide, trivial⟩) hb]
  | name hb =>
    rw [hM.append, hown .name, hall (fun i => ⟨by decide, trivial⟩) hb]
  | nothing =>
    refine iff_of_false hM.empty ?_
    rintro (⟨own, hnotes, -⟩ | ⟨i, child, s', -, hc, -⟩)
    · exact absurd hnotes.mem_kinds (by decide)
    · simp at hc
  | @field _ object rest _ hobject =>
    rw [or_iff_right (hsilent (by decide))]
    constructor
    · have hfirst : Kind.SharesChild .period 0 := ⟨by decide, rfl⟩
      exact fun hm => ⟨0, object, s, hfirst, rfl, hobject, hm⟩
    · rintro ⟨i, child, s', ⟨-, hi⟩, hc, hs', hm⟩
      cases hi
      cases hc
      cases hobject.symm.trans hs'
      exact hm
  | other hkind hb =>
    have hnotes := hsilent fun hmem => hkind (List.mem_append_left [Kind.period] hmem)
    rw [or_iff_right hnotes, hall (Kind.sharesChild_of_not_mem fun hmem => hkind ?_) hb]
    revert hmem
    cases kind <;> decide

theorem survey_of_surveys {nodes : List Node} {index : Nat}
    (h : surveys path index nodes = .ok s) {i : Nat} {node : Node} (hn : nodes[i]? = some node) :
    ∃ s', node.survey ((index + i) :: path) = .ok s' ∧ s'.PartOf s := by
  induction nodes generalizing index i s with
  | nil => simp at hn
  | cons first rest ih =>
    obtain ⟨a, b, ha, hb, rfl⟩ := surveys_cons h
    cases i with
    | zero =>
      cases hn
      exact ⟨a, ha, .left .refl b⟩
    | succ i =>
      obtain ⟨s', hs', hpart⟩ := ih hb hn
      rw [Nat.add_right_comm] at hs'
      exact ⟨s', hs', .right hpart a⟩

/-- A child in the same body is surveyed with the node. -/
theorem survey_of_shares {node child : Node} (h : node.survey path = .ok s) {i : Nat}
    (hshares : node.kind.SharesChild i) (hc : node.children[i]? = some child) :
    ∃ s', child.survey (i :: path) = .ok s' ∧ s'.PartOf s := by
  obtain ⟨kind, literal, position, children⟩ := node
  have hall : ∀ {b : Survey}, surveys path 0 children = .ok b →
      ∃ s', child.survey (i :: path) = .ok s' ∧ s'.PartOf b := fun hb =>
    Nat.zero_add i ▸ survey_of_surveys hb hc
  cases surveyed_of_survey h with
  | function => exact absurd rfl hshares.1
  | object =>
    obtain ⟨k, rfl⟩ := Nat.exists_eq_add_of_le hshares.2
    rw [Nat.add_comm] at hc
    cases hc
  | @method _ _ _ arguments _ _ _ hb =>
    obtain ⟨k, rfl⟩ := Nat.exists_eq_add_of_le hshares.2
    obtain ⟨s', hs', hpart⟩ := survey_of_surveys hb (show arguments[k]? = some child by
      rw [Nat.add_comm] at hc
      exact hc)
    exact ⟨s', hs', .right hpart _⟩
  | assignment _ _ hb | declaration _ hb | name hb =>
    obtain ⟨s', hs', hpart⟩ := hall hb
    exact ⟨s', hs', .right hpart _⟩
  | nothing => simp at hc
  | field hobject =>
    cases hshares.2
    cases hc
    exact ⟨s, hobject, .refl⟩
  | other _ hb => exact hall hb

/-- What is in the survey of a node is what is noted for the nodes of its body. -/
theorem holds_iff (hM : Survey.Additive M) (node : Node) : ∀ {path : Path} {s : Survey},
    node.survey path = .ok s → (M s ↔ ∃ rel below own, node.Reaches Kind.SharesChild rel below ∧
      below.Notes (rel ++ path) own ∧ M own) := by
  induction node using Node.induct with
  | h kind literal position children ih =>
    intro path s hs
    rw [holds_step_iff hM hs]
    constructor
    · rintro (⟨own, hnotes, hm⟩ | ⟨i, child, s', hshares, hc, hs', hm⟩)
      · exact ⟨[], _, own, .root, hnotes, hm⟩
      · obtain ⟨rel, below, own, hreaches, hnotes, hm⟩ :=
          (ih child (List.mem_of_getElem? hc) hs').1 hm
        refine ⟨rel ++ [i], below, own, .of_child hshares hc hreaches, ?_, hm⟩
        rwa [List.append_assoc]
    · rintro ⟨rel, below, own, hreaches, hnotes, hm⟩
      obtain ⟨rfl, rfl⟩ | ⟨i, child, rel, hshares, hc, hrest, rfl⟩ := hreaches.cases_head
      · exact Or.inl ⟨own, hnotes, hm⟩
      · obtain ⟨s', hs', -⟩ := survey_of_shares hs hshares hc
        rw [List.append_assoc] at hnotes
        refine Or.inr ⟨i, child, s', hshares, hc, hs', ?_⟩
        exact (ih child (List.mem_of_getElem? hc) hs').2 ⟨rel, below, own, hrest, hnotes, hm⟩

end

/-! ## Names of a body -/

/-- The node mentions the variable: it is its name, or a method call on something that begins with
the name. -/
inductive RefersTo (x : String) : Node → Prop
  | name {position children} : RefersTo x ⟨.identifier, x, position, children⟩
  | object {literal position object rest} (h : object.leftmostName = .ok x) :
    RefersTo x ⟨.methodCall, literal, position, object :: rest⟩

/-- The node is an assignment with a target that begins with the name. -/
inductive AssignsTo (x : String) : Node → Prop
  | target {kind literal position left rest target}
    (hkind : kind = .assign ∨ kind = .default ∨ kind = .accumulate) (ht : target ∈ left.listed)
    (h : target.leftmostName = .ok x) : AssignsTo x ⟨kind, literal, position, left :: rest⟩

/-- The node declares that the name belongs outside. -/
inductive Declares (x : String) : Node → Prop
  | name {literal position children child} (hc : child ∈ children)
    (h : child.kind = .identifier ∧ child.literal = x) :
    Declares x ⟨.externWord, literal, position, children⟩

/-- Some node of the body satisfies `P`. The functions inside are not part of the body, nor are
names of fields and methods, nor of the object of a method call anything but its leftmost name. -/
def Has (body : Node) (P : Node → Prop) : Prop :=
  ∃ path node, body.Reaches Kind.SharesChild path node ∧ P node

theorem mem_of_mapM_iff {ε α β : Type} {f : α → Except ε β} {b : β} : ∀ {as : List α} {bs : List β},
    as.mapM f = .ok bs → (b ∈ bs ↔ ∃ a ∈ as, f a = .ok b)
  | [], bs, h => by
    cases h
    simp
  | a :: as, bs, h => by
    rw [List.mapM_cons] at h
    obtain ⟨b', hb', h⟩ := bind_eq_ok_iff.1 h
    obtain ⟨bs', hbs', h⟩ := bind_eq_ok_iff.1 h
    cases h
    simp [List.mem_cons, mem_of_mapM_iff hbs', hb', eq_comm]

theorem exists_of_mapM {ε α β : Type} {f : α → Except ε β} {a : α} : ∀ {as : List α} {bs : List β},
    as.mapM f = .ok bs → a ∈ as → ∃ b, f a = .ok b
  | [], _, _, ha => absurd ha List.not_mem_nil
  | first :: rest, bs, h, ha => by
    rw [List.mapM_cons] at h
    obtain ⟨b, hb, h⟩ := bind_eq_ok_iff.1 h
    obtain ⟨bs', hbs', -⟩ := bind_eq_ok_iff.1 h
    rcases List.mem_cons.1 ha with rfl | ha
    · exact ⟨b, hb⟩
    · exact exists_of_mapM hbs' ha

theorem declaredName_eq_ok_iff {node : Node} {x : String} :
    node.declaredName = .ok x ↔ node.kind = .identifier ∧ node.literal = x := by
  unfold declaredName
  split
  · next hkind => exact ⟨fun h => ⟨hkind, Except.ok.inj h⟩, fun h => congrArg Except.ok h.2⟩
  · next hkind => exact iff_of_false nofun fun h => hkind h.1

section

variable {x : String} {body node : Node} {path rel : Path} {s : Survey}

/-- A node of the body is surveyed with it. -/
theorem survey_of_reaches (h : body.Reaches Kind.SharesChild rel node)
    (hs : body.survey path = .ok s) :
    ∃ s', node.survey (rel ++ path) = .ok s' ∧ s'.PartOf s := by
  induction h with
  | root => exact ⟨s, hs, .refl⟩
  | child _ hstep hc ih =>
    obtain ⟨s', hs', hpart⟩ := ih
    obtain ⟨s'', hs'', hpart'⟩ := survey_of_shares hs' hstep hc
    exact ⟨s'', hs'', hpart'.trans hpart⟩

/-- If `P` holds of the surveyed nodes for which `M` is noted, then `M` is in the survey of a body
that has such a node. -/
theorem holds_iff_has {M : Survey → Prop} {P : Node → Prop} (hM : Survey.Additive M)
    (hP : ∀ {path node s}, Node.survey path node = .ok s →
      ((∃ own, Notes path node own ∧ M own) ↔ P node)) (hs : body.survey path = .ok s) :
    M s ↔ body.Has P := by
  rw [holds_iff hM body hs]
  constructor
  · rintro ⟨rel, node, own, hreaches, hnotes, hm⟩
    obtain ⟨s', hs', -⟩ := survey_of_reaches hreaches hs
    exact ⟨rel, node, hreaches, (hP hs').1 ⟨own, hnotes, hm⟩⟩
  · rintro ⟨rel, node, hreaches, hnode⟩
    obtain ⟨s', hs', -⟩ := survey_of_reaches hreaches hs
    obtain ⟨own, hnotes, hm⟩ := (hP hs').2 hnode
    exact ⟨rel, node, own, hreaches, hnotes, hm⟩

theorem mem_identifiers_iff (hs : body.survey path = .ok s) :
    x ∈ s.mentions.identifiers ↔ body.Has (RefersTo x) := by
  refine holds_iff_has (M := (x ∈ ·.mentions.identifiers))
    ⟨Names.not_mem_empty, fun _ _ => Names.mem_union⟩ (fun {path node s} _ => ?_) hs
  constructor
  · rintro ⟨own, hnotes, hm⟩
    cases hnotes with
    | object hobject =>
      cases List.mem_singleton.1 (Names.mem_ofList.1 hm)
      exact .object hobject
    | name =>
      cases List.mem_singleton.1 (Names.mem_ofList.1 hm)
      exact .name
    | function | assignment | declaration => exact absurd hm Names.not_mem_empty
  · intro h
    cases h with
    | name => exact ⟨_, .name, Names.mem_ofList.2 List.mem_cons_self⟩
    | object hobject => exact ⟨_, .object hobject, Names.mem_ofList.2 List.mem_cons_self⟩

theorem mem_assigned_iff (hs : body.survey path = .ok s) :
    x ∈ s.mentions.assigned ↔ body.Has (AssignsTo x) := by
  refine holds_iff_has (M := (x ∈ ·.mentions.assigned))
    ⟨Names.not_mem_empty, fun _ _ => Names.mem_union⟩ (fun {path node s} hs => ?_) hs
  constructor
  · rintro ⟨own, hnotes, hm⟩
    cases hnotes with
    | assignment hkind hnames =>
      obtain ⟨target, ht, hx⟩ := (mem_of_mapM_iff hnames).1 (Names.mem_ofList.1 hm)
      exact .target hkind ht hx
    | function | object | declaration | name => exact absurd hm Names.not_mem_empty
  · intro h
    cases h with
    | target hkind ht hx =>
      cases surveyed_of_survey hs with
      | assignment _ hnames =>
        exact ⟨_, .assignment hkind hnames,
          Names.mem_ofList.2 ((mem_of_mapM_iff hnames).2 ⟨_, ht, hx⟩)⟩
      | other hother => rcases hkind with rfl | rfl | rfl <;> exact absurd (by decide) hother
      | _ => simp at hkind

theorem mem_externs_iff (hs : body.survey path = .ok s) :
    x ∈ s.mentions.externs ↔ body.Has (Declares x) := by
  refine holds_iff_has (M := (x ∈ ·.mentions.externs))
    ⟨Names.not_mem_empty, fun _ _ => Names.mem_union⟩ (fun {path node s} hs => ?_) hs
  constructor
  · rintro ⟨own, hnotes, hm⟩
    cases hnotes with
    | declaration hnames =>
      obtain ⟨child, hc, hx⟩ := (mem_of_mapM_iff hnames).1 (Names.mem_ofList.1 hm)
      exact .name hc (declaredName_eq_ok_iff.1 hx)
    | function | object | assignment | name => exact absurd hm Names.not_mem_empty
  · intro h
    cases h with
    | name hc hx =>
      cases surveyed_of_survey hs with
      | declaration hnames =>
        exact ⟨_, .declaration hnames, Names.mem_ofList.2
          ((mem_of_mapM_iff hnames).2 ⟨_, hc, declaredName_eq_ok_iff.2 hx⟩)⟩
      | assignment hkind => simp at hkind
      | other hother => exact absurd (by decide) hother

end

end Node

end Scripting

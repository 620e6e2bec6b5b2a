import Mathlib.Data.List.Forall2
import Scripting.Proofs.AlikeReaders
import Scripting.Proofs.Sites

/-!
# Proofs: nodes that are analysed alike

What the survey notes for a node comes from the kind and the text of the node and from its children.
So two nodes of one kind and text are analysed alike if their children are, one by one, wherever the
nodes stand. Trees that are equal up to places are analysed alike.
-/

namespace Scripting

/-! ## Computations with the same results -/

/-- If the first computation succeeds, so does the second, and the results are the same as far as
`er` shows them. -/
def Matches {ε α γ : Type} (er : α → γ) (x x' : Except ε α) : Prop :=
  ∀ a, x = .ok a → ∃ a', x' = .ok a' ∧ er a = er a'

section

variable {ε α β γ δ : Type} {er : α → γ} {er' : β → δ} {x x' x'' : Except ε α}
  {f f' : α → Except ε β}

theorem matches_ok {a a' : α} (h : er a = er a') :
    Matches er (.ok a : Except ε α) (.ok a') := by
  rintro _ ⟨⟩
  exact ⟨a', rfl, h⟩

theorem matches_error {e : ε} : Matches er (.error e) x' :=
  nofun

theorem Matches.trans (h : Matches er x x') (h' : Matches er x' x'') : Matches er x x'' := by
  intro a ha
  obtain ⟨a', ha', heq⟩ := h a ha
  obtain ⟨a'', ha'', heq'⟩ := h' a' ha'
  exact ⟨a'', ha'', heq.trans heq'⟩

theorem Matches.bind (h : Matches er x x')
    (hf : ∀ a a', er a = er a' → Matches er' (f a) (f' a')) :
    Matches er' (x >>= f) (x' >>= f') := by
  intro b hb
  obtain ⟨a, ha, hb⟩ := bind_eq_ok_iff.1 hb
  obtain ⟨a', ha', heq⟩ := h a ha
  obtain ⟨b', hb', heq'⟩ := hf a a' heq b hb
  exact ⟨b', bind_eq_ok_iff.2 ⟨a', ha', hb'⟩, heq'⟩

/-- The results of two computations put together. -/
theorem Matches.map (h : Matches er x x') {g g' : α → β}
    (hg : ∀ a a', er a = er a' → er' (g a) = er' (g' a')) :
    Matches er' (do return g (← x)) (do return g' (← x')) :=
  h.bind fun a a' heq => matches_ok (hg a a' heq)

theorem matches_mapM {R : α → β → Prop} {as : List α} {bs : List β} {g : α → Except ε γ}
    {g' : β → Except ε γ} (h : List.Forall₂ R as bs)
    (hg : ∀ a b, R a b → Matches id (g a) (g' b)) : Matches id (as.mapM g) (bs.mapM g') := by
  induction h with
  | nil => exact matches_ok rfl
  | cons hfirst _ ih =>
    rw [List.mapM_cons, List.mapM_cons]
    refine (hg _ _ hfirst).bind fun c c' hc => ?_
    exact ih.map fun cs cs' hcs => congrArg₂ List.cons hc hcs

end

namespace Node

variable {node node' : Node}

/-- What two nodes list is related if the nodes and their children are, one by one. -/
theorem forall₂_listed {R : Node → Node → Prop} (hkind : node.kind = node'.kind) (h : R node node')
    (hchildren : List.Forall₂ R node.children node'.children) :
    List.Forall₂ R node.listed node'.listed := by
  unfold listed
  rw [hkind]
  cases node'.kind with
  | comma | leftParen => exact hchildren
  | _ => exact .cons h .nil

/-! ## Nodes with the same readings -/

/-- The trees mention the same, wherever they stand. -/
def MentionsAs (node node' : Node) : Prop :=
  ∀ path path', Matches Survey.mentions (node.survey path) (node'.survey path')

/-- The same is read from the nodes, wherever they stand: as a list of parameters, as the object of
a method call, as the target of an assignment, as a declared name and as a part of a body. -/
structure ReadsAs (node node' : Node) : Prop where
  kind : node.kind = node'.kind
  literal : node.literal = node'.literal
  names : Matches id node.nameList node'.nameList
  leftmost : Matches id node.leftmostName node'.leftmostName
  targets : Matches id (node.listed.mapM leftmostName) (node'.listed.mapM leftmostName)
  mentions : node.MentionsAs node'

theorem mentions_append {a a' b b' : Survey} (ha : a.mentions = a'.mentions)
    (hb : b.mentions = b'.mentions) : (a ++ b).mentions = (a' ++ b').mentions :=
  congrArg₂ Mentions.append ha hb

theorem matches_surveys {nodes nodes' : List Node} {path path' : Path}
    (h : List.Forall₂ MentionsAs nodes nodes') : ∀ index index',
      Matches Survey.mentions (surveys path index nodes) (surveys path' index' nodes') := by
  induction h with
  | nil =>
    intro index index'
    rw [surveys, surveys]
    exact matches_ok rfl
  | cons hfirst _ ih =>
    intro index index'
    rw [surveys, surveys]
    exact (hfirst _ _).bind fun a a' ha => (ih _ _).map fun b b' hb => mentions_append ha hb

section

variable {kind : Kind} {literal : String} {position position' : Position}
  {children children' : List Node} (h : List.Forall₂ ReadsAs children children')

include h

theorem matches_nameList : Matches id (nameList ⟨kind, literal, position, children⟩)
    (nameList ⟨kind, literal, position', children'⟩) := by
  have hall : Matches id (nameLists children) (nameLists children') := by
    induction h with
    | nil => exact matches_ok rfl
    | cons hfirst _ ih =>
      rw [nameLists, nameLists]
      refine hfirst.names.bind fun a a' ha => ?_
      exact ih.map fun as as' has => congrArg₂ (· ++ ·) ha has
  rw [nameList.eq_def, nameList.eq_def]
  cases kind with
  | identifier => exact matches_ok rfl
  | comma | leftBracket | leftParen => exact hall
  | _ => exact matches_error

theorem matches_leftmostName : Matches id (leftmostName ⟨kind, literal, position, children⟩)
    (leftmostName ⟨kind, literal, position', children'⟩) := by
  rw [leftmostName.eq_def, leftmostName.eq_def]
  cases kind with
  | identifier => exact matches_ok rfl
  | period | leftBracket =>
    cases h with
    | nil => exact matches_error
    | cons hfirst _ => exact hfirst.leftmost
  | _ => exact matches_error

theorem matches_targets :
    Matches id ((listed ⟨kind, literal, position, children⟩).mapM leftmostName)
      ((listed ⟨kind, literal, position', children'⟩).mapM leftmostName) := by
  refine matches_mapM (R := fun node node' => Matches id node.leftmostName node'.leftmostName)
    (forall₂_listed rfl (matches_leftmostName h) ?_) fun _ _ h => h
  exact h.imp fun _ _ h => h.leftmost

theorem mentionsAs_node : MentionsAs ⟨kind, literal, position, children⟩
    ⟨kind, literal, position', children'⟩ := by
  intro path path'
  have hrow : ∀ {nodes nodes' : List Node}, List.Forall₂ ReadsAs nodes nodes' → ∀ index index',
      Matches Survey.mentions (surveys path index nodes) (surveys path' index' nodes') :=
    fun hnodes => matches_surveys (hnodes.imp fun _ _ h => h.mentions)
  have hall := hrow h 0 0
  rw [survey.eq_def, survey.eq_def]
  cases kind with
  | funcWord =>
    obtain _ | ⟨hparameters, _ | ⟨hchannels, _ | ⟨hbody, -⟩⟩⟩ := h
    · exact matches_error
    · exact matches_error
    · exact matches_error
    · refine hparameters.names.bind fun ps ps' hps => ?_
      refine hchannels.names.bind fun cs cs' hcs => ?_
      refine (hbody.mentions _ _).map fun b b' hb => ?_
      cases hps
      cases hcs
      show { Mentions.none with
        nested := (Analysis.ofMentions ps cs b.mentions).captures } = _
      rw [hb]
      rfl
  | methodCall =>
    obtain _ | ⟨hobject, _ | ⟨-, harguments⟩⟩ := h
    · exact matches_error
    · refine hobject.leftmost.map fun name name' hname => ?_
      cases hname
      rfl
    · refine hobject.leftmost.bind fun name name' hname => ?_
      cases hname
      exact (hrow harguments 2 2).map fun b b' hb => mentions_append rfl hb
  | assign | default | accumulate =>
    obtain _ | ⟨htarget, -⟩ := h
    · exact matches_error
    · refine htarget.targets.bind fun names names' hnames => ?_
      cases hnames
      exact hall.map fun b b' hb => mentions_append rfl hb
  | externWord =>
    have hnames : Matches id (children.mapM declaredName) (children'.mapM declaredName) := by
      refine matches_mapM h fun child child' hchild => ?_
      unfold declaredName
      rw [hchild.kind, hchild.literal]
      split
      · exact matches_ok rfl
      · exact matches_error
    refine hnames.bind fun names names' hnames => ?_
    cases hnames
    exact hall.map fun b b' hb => mentions_append rfl hb
  | identifier => exact hall.map fun b b' hb => mentions_append rfl hb
  | period =>
    cases h with
    | nil => exact matches_ok rfl
    | cons hobject _ => exact hobject.mentions _ _
  | _ => exact hall

/-- The same is read from two nodes if it is from their children, one by one. -/
theorem ReadsAs.of_children : ReadsAs ⟨kind, literal, position, children⟩
    ⟨kind, literal, position', children'⟩ :=
  ⟨rfl, rfl, matches_nameList h, matches_leftmostName h, matches_targets h, mentionsAs_node h⟩

end

/-- Functions have the same analysis if the same is read from their parts. -/
theorem FunctionAt.analysis_eq {root root' body body' : Node} {path path' : Path}
    {a a' : Analysis} {s s' : Survey} (h : FunctionAt root path a body s)
    (h' : FunctionAt root' path' a' body' s') (hat : root.at? path = some node)
    (hat' : root'.at? path' = some node')
    (hchildren : List.Forall₂ ReadsAs node.children node'.children) : a = a' := by
  obtain ⟨_, _, _, _, _, hnode, hps, hcs⟩ := h.node
  obtain ⟨_, _, _, _, _, hnode', hps', hcs'⟩ := h'.node
  cases hat.symm.trans hnode
  cases hat'.symm.trans hnode'
  obtain _ | ⟨hparameters, _ | ⟨hchannels, _ | ⟨hbody, -⟩⟩⟩ := hchildren
  obtain ⟨ps, hps'', hparameters⟩ := hparameters.names _ hps
  obtain ⟨cs, hcs'', hchannels⟩ := hchannels.names _ hcs
  obtain ⟨t, ht, hmentions⟩ := hbody.mentions _ _ _ h.survey
  cases hps''.symm.trans hps'
  cases hcs''.symm.trans hcs'
  cases ht.symm.trans h'.survey
  rw [h.analysis, h'.analysis]
  exact hmentions ▸ congrArg₂ (Analysis.ofMentions · · s.mentions) hparameters hchannels

/-! ## Alike trees -/

/-- The trees are the same up to places. -/
def Alike (node node' : Node) : Prop :=
  node.erased = node'.erased

theorem Alike.kind (h : node.Alike node') : node.kind = node'.kind := by
  obtain ⟨kind, literal, position, children⟩ := node
  obtain ⟨kind', literal', position', children'⟩ := node'
  exact (erased_eq_iff.1 h).1

theorem Alike.literal (h : node.Alike node') : node.literal = node'.literal := by
  obtain ⟨kind, literal, position, children⟩ := node
  obtain ⟨kind', literal', position', children'⟩ := node'
  exact (erased_eq_iff.1 h).2.1

theorem forall₂_alike_iff {nodes nodes' : List Node} :
    List.Forall₂ Alike nodes nodes' ↔ nodes.map erased = nodes'.map erased := by
  rw [← List.forall₂_eq_eq_eq, List.forall₂_map_left_iff, List.forall₂_map_right_iff]
  exact Iff.rfl

theorem Alike.children (h : node.Alike node') :
    List.Forall₂ Alike node.children node'.children := by
  obtain ⟨kind, literal, position, children⟩ := node
  obtain ⟨kind', literal', position', children'⟩ := node'
  exact forall₂_alike_iff.2 (erased_eq_iff.1 h).2.2

theorem Alike.listed (h : node.Alike node') : List.Forall₂ Alike node.listed node'.listed :=
  forall₂_listed h.kind h h.children

/-- Induction on two alike trees: two nodes may use the statement for their children. -/
theorem Alike.induct {P : Node → Node → Prop}
    (h : ∀ kind literal position position' children children',
      List.Forall₂ (fun child child' => Alike child child' ∧ P child child') children children' →
        P ⟨kind, literal, position, children⟩ ⟨kind, literal, position', children'⟩)
    (halike : node.Alike node') : P node node' := by
  induction node using Node.induct generalizing node' with
  | h kind literal position children ih =>
    obtain ⟨kind', literal', position', children'⟩ := node'
    obtain ⟨rfl, rfl, hchildren⟩ := erased_eq_iff.1 halike
    have hboth : ∀ {nodes nodes' : List Node}, List.Forall₂ Alike nodes nodes' → nodes ⊆ children →
        List.Forall₂ (fun child child' => Alike child child' ∧ P child child') nodes nodes' := by
      intro nodes nodes' hnodes
      induction hnodes with
      | nil => exact fun _ => .nil
      | cons hfirst _ ihr =>
        intro hsub
        exact .cons ⟨hfirst, ih _ (hsub List.mem_cons_self) hfirst⟩
          (ihr (List.subset_of_cons_subset hsub))
    exact h kind literal position position' children children'
      (hboth (forall₂_alike_iff.2 hchildren) (List.Subset.refl _))

/-- The same is read from alike trees. -/
theorem Alike.readsAs (h : node.Alike node') : node.ReadsAs node' :=
  h.induct fun _ _ _ _ _ _ hchildren => .of_children (hchildren.imp fun _ _ h => h.2)

end Node

end Scripting

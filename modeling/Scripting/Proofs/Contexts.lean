import Mathlib.Logic.Relation
import Scripting.Proofs.AlikeAnalyses
import Scripting.Proofs.Listing

/-!
# Proofs: what an analysis depends on

The analysis of a function comes from the tree of the function alone. What stands around the
function does not matter, nor where the function stands, nor the order of the statements in its
blocks.
-/

namespace Scripting

namespace Names

theorem union_left_comm (a b c : Names) : a ∪ (b ∪ c) = b ∪ (a ∪ c) :=
  ext fun x => by simp only [mem_union, or_left_comm]

end Names

theorem Mentions.append_left_comm (a b c : Mentions) : a ++ (b ++ c) = b ++ (a ++ c) := by
  show append a (append b c) = append b (append a c)
  simp only [append, Names.union_left_comm]

namespace Node

variable {root root' node node' child : Node} {block path rel : Path} {index : Nat}
  {step : Kind → Nat → Prop}

/-! ## Nodes with the same parts -/

theorem ReadsAs.refl (node : Node) : node.ReadsAs node :=
  Alike.readsAs rfl

/-- The nodes are of one kind, and the same is read from their children. The paths of the nodes do
not count. -/
structure PartsAs (node node' : Node) : Prop where
  kind : node.kind = node'.kind
  children : List.Forall₂ ReadsAs node.children node'.children

theorem forall₂_readsAs_refl (nodes : List Node) : List.Forall₂ ReadsAs nodes nodes :=
  List.forall₂_same.2 fun node _ => .refl node

theorem PartsAs.refl (node : Node) : node.PartsAs node :=
  ⟨rfl, forall₂_readsAs_refl node.children⟩

theorem Alike.partsAs (h : node.Alike node') : node.PartsAs node' :=
  ⟨h.kind, h.children.imp fun _ _ h => h.readsAs⟩

/-- Where one can go from a node, one can go from an alike one. -/
theorem Alike.reaches (h : root.Alike root') (hreaches : root.Reaches step path node) :
    ∃ node', root'.Reaches step path node' ∧ node.Alike node' := by
  induction hreaches with
  | root => exact ⟨root', .root, h⟩
  | @child path node index child _ hstep hc ih =>
    obtain ⟨node', hreaches', hnode⟩ := ih
    have hchildren := congrArg (·[index]?) (forall₂_alike_iff.1 hnode.children)
    rw [List.getElem?_map, List.getElem?_map, hc] at hchildren
    obtain ⟨child', hc', hchild⟩ := Option.map_eq_some_iff.1 hchildren.symm
    exact ⟨child', .child hreaches' (hnode.kind ▸ hstep) hc', hchild.symm⟩

/-! ## Blocks in another order -/

/-- The second tree is the first with the statements of the block at the path in another order. -/
inductive Reordered : Path → Node → Node → Prop
  | block {literal position statements statements'} (h : List.Perm statements statements') :
    Reordered [] ⟨.statements, literal, position, statements⟩
      ⟨.statements, literal, position, statements'⟩
  | inside {block kind literal position front back child child'}
    (h : Reordered block child child') :
    Reordered (block ++ [List.length front]) ⟨kind, literal, position, front ++ child :: back⟩
      ⟨kind, literal, position, front ++ child' :: back⟩

/-- The second tree comes from the first by reordering, one after the other, blocks at the path or
anywhere below it. -/
def Shuffled (path : Path) : Node → Node → Prop :=
  Relation.ReflTransGen fun root root' => ∃ block, path <:+ block ∧ root.Reordered block root'

theorem Reordered.symm (h : root.Reordered block root') : root'.Reordered block root := by
  induction h with
  | block h => exact .block h.symm
  | inside _ ih => exact .inside ih

/-- Statements mention the same in any order. -/
theorem matches_surveys_of_perm {nodes nodes' : List Node} (h : nodes.Perm nodes') :
    ∀ path path' index index', Matches Survey.mentions (surveys path index nodes)
      (surveys path' index' nodes') := by
  have hsame : ∀ nodes path path' index index', Matches Survey.mentions (surveys path index nodes)
      (surveys path' index' nodes) := fun nodes path path' =>
    matches_surveys ((forall₂_readsAs_refl nodes).imp fun _ _ h => h.mentions)
  induction h with
  | nil => exact hsame []
  | cons node _ ih =>
    intro path path' index index'
    rw [surveys, surveys]
    refine ((ReadsAs.refl node).mentions _ _).bind fun a a' ha => ?_
    exact (ih _ _ _ _).map fun b b' hb => mentions_append ha hb
  | swap first second rest =>
    intro path path' index index' s hs
    obtain ⟨b, t, hb, ht, rfl⟩ := surveys_cons hs
    obtain ⟨a, c, ha, hc, rfl⟩ := surveys_cons ht
    obtain ⟨a', ha', hsamea⟩ := (ReadsAs.refl first).mentions _ (index' :: path') a ha
    obtain ⟨b', hb', hsameb⟩ := (ReadsAs.refl second).mentions _ ((index' + 1) :: path') b hb
    obtain ⟨c', hc', hsamec⟩ := hsame rest _ path' _ (index' + 1 + 1) c hc
    refine ⟨a' ++ (b' ++ c'), ?_, ?_⟩
    · rw [surveys, surveys, ha', hb', hc']
      rfl
    · exact (Mentions.append_left_comm ..).trans
        (mentions_append hsamea (mentions_append hsameb hsamec))
  | trans _ _ ih ih' =>
    exact fun path path' index index' => (ih path path' index index').trans (ih' _ _ _ _)

theorem Reordered.readsAs (h : root.Reordered block root') : root.ReadsAs root' := by
  induction h with
  | block h =>
    refine ⟨rfl, rfl, matches_error, matches_error, matches_error, fun path path' => ?_⟩
    exact matches_surveys_of_perm h path path' 0 0
  | @inside _ _ _ _ front back _ _ _ ih =>
    have hback : List.Forall₂ ReadsAs (_ :: back) (_ :: back) := .cons ih (forall₂_readsAs_refl back)
    exact .of_children (List.rel_append (forall₂_readsAs_refl front) hback)

theorem Reordered.partsAs (h : root.Reordered block root') (hne : block ≠ []) :
    root.PartsAs root' := by
  cases h with
  | block => exact absurd rfl hne
  | @inside _ _ _ _ front back _ _ h =>
    have hback : List.Forall₂ ReadsAs (_ :: back) (_ :: back) :=
      .cons h.readsAs (forall₂_readsAs_refl back)
    exact ⟨rfl, List.rel_append (forall₂_readsAs_refl front) hback⟩

theorem getElem?_append_cons {α : Type} {front back : List α} {a b : α} (h : index ≠ front.length) :
    (front ++ a :: back)[index]? = (front ++ b :: back)[index]? := by
  rcases Nat.lt_or_gt_of_ne h with hlt | hgt
  · rw [List.getElem?_append_left hlt, List.getElem?_append_left hlt]
  · obtain ⟨k, rfl⟩ := Nat.exists_eq_add_of_lt hgt
    simp [List.getElem?_append_right, Nat.add_assoc]

/-- Where one can go from a tree without entering the block, one can go from the other tree. The
node there is the same, or it is one around the block. -/
theorem Reordered.reaches (h : root.Reordered block root') (hreaches : root.Reaches step path node)
    (hout : ¬ block <:+ path) : ∃ node', root'.Reaches step path node' ∧
      (node' = node ∨ ∃ rel, rel ≠ [] ∧ block = rel ++ path ∧ node.Reordered rel node') := by
  induction hreaches with
  | root =>
    refine ⟨root', .root, .inr ⟨block, fun he => ?_, (List.append_nil _).symm, h⟩⟩
    exact hout (he ▸ List.suffix_refl [])
  | @child path node index child _ hstep hc ih =>
    obtain ⟨node', hreaches', rfl | ⟨rel, hne, rfl, hrel⟩⟩ :=
      ih fun hin => hout (hin.trans (List.suffix_cons index path))
    · exact ⟨child, .child hreaches' hstep hc, .inl rfl⟩
    · cases hrel with
      | block => exact absurd rfl hne
      | @inside rel kind literal position front back below below' hbelow =>
        -- The step leads towards the block or past it.
        by_cases hindex : index = front.length
        · subst hindex
          rw [List.getElem?_append_right (Nat.le_refl _), Nat.sub_self] at hc
          cases hc
          refine ⟨below', .child hreaches' hstep ?_, .inr ⟨rel, fun he => ?_, ?_, hbelow⟩⟩
          · rw [List.getElem?_append_right (Nat.le_refl _), Nat.sub_self]
            rfl
          · exact hout (by rw [he]; exact List.suffix_refl _)
          · rw [List.append_assoc]
            rfl
        · rw [getElem?_append_cons hindex] at hc
          exact ⟨child, .child hreaches' hstep hc, .inl rfl⟩

end Node

namespace Program

variable {p p' : Program} {root root' node node' : Node} {path path' block : Path} {a : Analysis}

/-- If the same can be read from what stands at two paths, an analysis of the first is one of the
second. -/
theorem analysis?_of_parts (hp : ofNode root = .ok p) (hp' : ofNode root' = .ok p')
    (h : ∀ node, root.Reaches Kind.SurveysChild path node →
      ∃ node', root'.Reaches Kind.SurveysChild path' node' ∧ node.PartsAs node')
    (ha : p.analysis? path = some a) : p'.analysis? path' = some a := by
  obtain ⟨node, hreaches, hkind⟩ := (exists_analysis_iff hp).1 ⟨a, ha⟩
  obtain ⟨node', hreaches', hparts⟩ := h node hreaches
  obtain ⟨a', body', s', ha', hat'⟩ := analysis?_of_reaches hp' hreaches' (hparts.kind ▸ hkind)
  obtain ⟨-, body, s, hat⟩ := functionAt_of_analysis? hp ha
  rw [ha', hat.analysis_eq hat' hreaches.at? hreaches'.at? hparts.children]

/-- What is inside alike trees has the same analyses. -/
theorem analysis?_of_alike (hp : ofNode root = .ok p) (hp' : ofNode root' = .ok p')
    (hreaches : root.Reaches Kind.SurveysChild path node)
    (hreaches' : root'.Reaches Kind.SurveysChild path' node') (h : node.Alike node') {rel : Path}
    (ha : p.analysis? (rel ++ path) = some a) : p'.analysis? (rel ++ path') = some a := by
  refine analysis?_of_parts hp hp' (fun below hbelow => ?_) ha
  obtain ⟨mid, hmid, hrel⟩ := hbelow.of_append
  cases hmid.at?.symm.trans hreaches.at?
  obtain ⟨below', hrel', hbelow'⟩ := h.reaches hrel
  exact ⟨below', hreaches'.trans hrel', hbelow'.partsAs⟩

theorem analysis?_eq_of_alike (hp : ofNode root = .ok p) (hp' : ofNode root' = .ok p')
    (hreaches : root.Reaches Kind.SurveysChild path node)
    (hreaches' : root'.Reaches Kind.SurveysChild path' node') (h : node.Alike node') (rel : Path) :
    p.analysis? (rel ++ path) = p'.analysis? (rel ++ path') :=
  Option.ext fun _ => ⟨analysis?_of_alike hp hp' hreaches hreaches' h,
    analysis?_of_alike hp' hp hreaches' hreaches h.symm⟩

/-- The survey gets to a node on the way to the functions inside it. -/
theorem reaches_of_analysis? (hp : ofNode root = .ok p) (hat : root.at? path = some node)
    {rel : Path} (ha : p.analysis? (rel ++ path) = some a) :
    root.Reaches Kind.SurveysChild path node := by
  obtain ⟨below, hbelow, -⟩ := (exists_analysis_iff hp).1 ⟨a, ha⟩
  obtain ⟨mid, hmid, -⟩ := hbelow.of_append
  cases hmid.at?.symm.trans hat
  exact hmid

/-- Outside a block, its order does not change an analysis. -/
theorem analysis?_of_reordered (hp : ofNode root = .ok p) (hp' : ofNode root' = .ok p')
    (h : root.Reordered block root') (hout : ¬ block <:+ path) (ha : p.analysis? path = some a) :
    p'.analysis? path = some a := by
  refine analysis?_of_parts hp hp' (fun node hreaches => ?_) ha
  obtain ⟨node', hreaches', rfl | ⟨rel, hne, -, hrel⟩⟩ := h.reaches hreaches hout
  · exact ⟨_, hreaches', .refl _⟩
  · exact ⟨node', hreaches', hrel.partsAs hne⟩

/-- A tree can be analysed in any order of a block, with the same result outside the block. -/
theorem ofNode_of_reordered (hp : ofNode root = .ok p) (h : root.Reordered block root') :
    ∃ p', ofNode root' = .ok p' ∧ p'.top = p.top ∧
      ∀ path, ¬ block <:+ path → p'.analysis? path = p.analysis? path := by
  have hp₀ := hp
  obtain ⟨s, hs, rfl⟩ := survey_root hp
  obtain ⟨s', hs', hsame⟩ := h.readsAs.mentions [] [] s hs
  have hp' : ofNode root' = .ok ⟨root', .ofMentions [] [] s'.mentions, s'.sites⟩ :=
    bind_eq_ok_iff.2 ⟨s', hs', rfl⟩
  refine ⟨_, hp', congrArg (Analysis.ofMentions [] []) hsame.symm, fun path hout => ?_⟩
  exact Option.ext fun a => ⟨analysis?_of_reordered hp' hp₀ h.symm hout,
    analysis?_of_reordered hp₀ hp' h hout⟩

/-- What holds for one block holds for any number of them. -/
theorem ofNode_of_shuffled (hp : ofNode root = .ok p) (h : root.Shuffled block root') :
    ∃ p', ofNode root' = .ok p' ∧ p'.top = p.top ∧
      ∀ path, ¬ block <:+ path → p'.analysis? path = p.analysis? path := by
  induction h with
  | refl => exact ⟨p, hp, rfl, fun _ _ => rfl⟩
  | tail _ hstep ih =>
    obtain ⟨p', hp', htop, hsame⟩ := ih
    obtain ⟨inside, hinside, hstep⟩ := hstep
    obtain ⟨p'', hp'', htop', hsame'⟩ := ofNode_of_reordered hp' hstep
    refine ⟨p'', hp'', htop'.trans htop, fun path hout => ?_⟩
    exact (hsame' path fun hin => hout (hinside.trans hin)).trans (hsame path hout)

/-- The analysis of a function depends on the tree of the function alone. A function that stands in
two programs has the same analysis in both, with the same free names and captures, and so has every
function inside it; each is analysed if the survey gets to the place. The order of the statements in
a body, and in the blocks below it, changes neither the analysis of the function with the body nor
that of one around it, nor any other outside the body. -/
theorem analyses_independent :
    (∀ {root root' node node' : Node} {p p' : Program} {path path' : Path},
      ofNode root = .ok p → ofNode root' = .ok p' → root.at? path = some node →
      root'.at? path' = some node' → node.kind = .funcWord → node.Alike node' →
        (∀ rel a a', p.analysis? (rel ++ path) = some a → p'.analysis? (rel ++ path') = some a' →
          a = a') ∧
        (root.Reaches Kind.SurveysChild path node → root'.Reaches Kind.SurveysChild path' node' →
          (∃ a, p.analysis? path = some a ∧ p'.analysis? path' = some a) ∧
          ∀ rel, p.analysis? (rel ++ path) = p'.analysis? (rel ++ path'))) ∧
    ∀ {root root' : Node} {p : Program} {body : Path}, ofNode root = .ok p →
      root.Shuffled body root' → ∃ p', ofNode root' = .ok p' ∧ p'.top = p.top ∧
        ∀ path, ¬ body <:+ path → p'.analysis? path = p.analysis? path := by
  refine ⟨fun {_ _ node _ _ _ _ _} hp hp' hat hat' hkind halike => ⟨?_, ?_⟩, ofNode_of_shuffled⟩
  · intro rel a a' ha ha'
    have hreaches := reaches_of_analysis? hp hat ha
    have hreaches' := reaches_of_analysis? hp' hat' ha'
    rw [analysis?_eq_of_alike hp hp' hreaches hreaches' halike, ha'] at ha
    exact (Option.some.inj ha).symm
  · intro hreaches hreaches'
    have hsame := analysis?_eq_of_alike hp hp' hreaches hreaches' halike
    obtain ⟨a, ha⟩ := (exists_analysis_iff hp).2 ⟨node, hreaches, hkind⟩
    exact ⟨⟨a, ha, (hsame []).symm.trans ha⟩, hsame⟩

/-- A function stands at the top level of one program and inside a function of the other, where one
of its names is a parameter. The third program has its statements in another order. -/
theorem analyses_independent_moved :
    ∃ root root' moved node node' p p', ofNode root = .ok p ∧ ofNode root' = .ok p' ∧
      root.at? [0] = some node ∧ root'.at? [0, 2, 0] = some node' ∧ node ≠ node' ∧
      node.Alike node' ∧ root'.Shuffled [2, 0, 2, 0] moved ∧ root' ≠ moved ∧
      (∃ a, p.analysis? [0] = some a ∧ p'.analysis? [0, 2, 0] = some a) ∧
      ∃ p'', ofNode moved = .ok p'' ∧ p''.analysis? [0, 2, 0] = p'.analysis? [0, 2, 0] ∧
        p''.analysis? [0] = p'.analysis? [0] := by
  let name x : Node := ⟨.identifier, x, ⟨3, 1⟩, []⟩
  let function parameters statements position : Node := ⟨.funcWord, "func", position,
    [⟨.leftParen, "params", ⟨2, 1⟩, parameters⟩, ⟨.leftBracket, "channels", ⟨2, 1⟩, []⟩,
      ⟨.statements, "stmts", ⟨2, 1⟩, statements⟩]⟩
  let root : Node := ⟨.statements, "stmts", ⟨1, 1⟩, [function [] [name "x", name "y"] ⟨1, 1⟩]⟩
  let within statements : Node := ⟨.statements, "stmts", ⟨1, 1⟩,
    [function [name "x"] [function [] statements ⟨2, 2⟩] ⟨1, 1⟩]⟩
  have hmoved : (within [name "x", name "y"]).Reordered [2, 0, 2, 0]
      (within [name "y", name "x"]) :=
    @Node.Reordered.inside [2, 0, 2] _ _ _ [] _ _ _ <|
      @Node.Reordered.inside [2, 0] _ _ _ [_, _] _ _ _ <|
        @Node.Reordered.inside [2] _ _ _ [] _ _ _ <|
          @Node.Reordered.inside [] _ _ _ [_, _] _ _ _ <| .block (.swap ..)
  have hshuffled : (within [name "x", name "y"]).Shuffled [2, 0, 2, 0]
      (within [name "y", name "x"]) := .single ⟨_, List.suffix_refl _, hmoved⟩
  obtain ⟨p, hp⟩ : ∃ p, ofNode root = .ok p := ⟨_, rfl⟩
  obtain ⟨p', hp'⟩ : ∃ p', ofNode (within [name "x", name "y"]) = .ok p' := ⟨_, rfl⟩
  have hreaches : root.Reaches Kind.SurveysChild [0] (function [] [name "x", name "y"] ⟨1, 1⟩) :=
    .child .root trivial rfl
  have hreaches' : (within [name "x", name "y"]).Reaches Kind.SurveysChild [0, 2, 0]
      (function [] [name "x", name "y"] ⟨2, 2⟩) :=
    .child (.child (.child .root trivial rfl) rfl rfl) trivial rfl
  obtain ⟨ha, -⟩ := (analyses_independent.1 hp hp' hreaches.at? hreaches'.at? rfl rfl).2
    hreaches hreaches'
  obtain ⟨p'', hp'', -, hsame⟩ := analyses_independent.2 hp' hshuffled
  refine ⟨root, _, _, _, _, p, p', hp, hp', rfl, rfl, fun he => ?_, rfl, hshuffled, fun he => ?_,
    ha, p'', hp'', hsame _ (by decide), hsame _ (by decide)⟩
  · exact absurd (congrArg Node.position he) (by decide)
  · have hname := congrArg (fun root : Node => (root.at? [0, 2, 0, 2, 0]).map (·.literal)) he
    exact absurd hname (by decide)

end Program

end Scripting

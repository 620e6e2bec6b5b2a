import Scripting.Proofs.References

/-!
# Proofs: the list of functions

A program lists its functions in the order of the source. The list is the preorder of a forest: each
function that the survey reaches is in it once, before the functions inside it, and knows the number
of the nearest function around it.
-/

namespace Scripting

open Node

/-! ## Entries and functions -/

/-- The entry tells of the function. -/
structure FunctionEntry.Of (e : FunctionEntry) (site : FunctionSite) : Prop where
  path : e.path = site.path
  analysis : e.analysis = site.analysis

namespace FunctionSite

/-- Induction on functions: a function may use the statement for those directly inside. -/
theorem induct {P : FunctionSite → Prop}
    (h : ∀ path analysis inner, (∀ site ∈ inner, P site) → P ⟨path, analysis, inner⟩)
    (site : FunctionSite) : P site := by
  refine @FunctionSite.rec P (fun sites => ∀ site ∈ sites, P site) ?_ ?_ ?_ site
  · exact fun path analysis inner ih => h path analysis inner ih
  · exact fun site hs => absurd hs List.not_mem_nil
  · intro first rest hfirst hrest site hs
    rcases List.mem_cons.1 hs with rfl | hs
    · exact hfirst
    · exact hrest site hs

theorem entriesAll_append (outer : List Analysis) (parent : Option Nat) (sites sites' :
    List FunctionSite) : ∀ index, entriesAll outer parent index (sites ++ sites') =
      entriesAll outer parent index sites ++
        entriesAll outer parent (index + (entriesAll outer parent index sites).length) sites' := by
  induction sites with
  | nil => simp [entriesAll]
  | cons site sites ih => simp [entriesAll, ih, Nat.add_assoc]

/-- Where the function of entry number `j` stands, in a list whose first entry has the number
`index`: among the functions `sites`, which have the surroundings `outer` and `parent`, or directly
inside the function of an entry before it. -/
inductive Hangs (Q : FunctionSite → Prop) (sites : List FunctionSite) (outer : List Analysis)
    (parent : Option Nat) (index : Nat) (entries : List FunctionEntry) (j : Nat)
    (e : FunctionEntry) : Prop
  | top {site} (hof : e.Of site) (hsite : site ∈ sites) (hparent : e.parent = parent)
    (houter : e.outer = outer)
  | inside {site around g i} (hof : e.Of site) (hi : i < j) (hg : entries[i]? = some g)
    (hofg : g.Of around) (hQ : Q around) (hsite : site ∈ around.inner)
    (hparent : e.parent = some (index + i)) (houter : e.outer = g.analysis :: g.outer)

variable {Q : FunctionSite → Prop} {sites sites' : List FunctionSite} {outer : List Analysis}
  {parent : Option Nat} {index j : Nat} {l l' : List FunctionEntry} {e : FunctionEntry}

theorem Hangs.append_right (h : Hangs Q sites outer parent index l j e) :
    Hangs Q (sites ++ sites') outer parent index (l ++ l') j e := by
  cases h with
  | top hof hsite hparent houter =>
    exact .top hof (List.mem_append_left _ hsite) hparent houter
  | inside hof hi hg hofg hQ hsite hparent houter =>
    refine .inside hof hi ?_ hofg hQ hsite hparent houter
    rw [List.getElem?_append_left (List.getElem?_eq_some_iff.1 hg).1]
    exact hg

theorem Hangs.append_left (h : Hangs Q sites' outer parent (index + l.length) l' j e) :
    Hangs Q (sites ++ sites') outer parent index (l ++ l') (l.length + j) e := by
  cases h with
  | top hof hsite hparent houter =>
    exact .top hof (List.mem_append_right _ hsite) hparent houter
  | @inside _ _ g i hof hi hg hofg hQ hsite hparent houter =>
    refine .inside hof (Nat.add_lt_add_left hi _) ?_ hofg hQ hsite (Nat.add_assoc .. ▸ hparent)
      houter
    rw [List.getElem?_append_right (Nat.le_add_right ..), Nat.add_sub_cancel_left]
    exact hg

theorem hangs_of_entriesAll (h : ∀ site ∈ sites, ∀ {outer parent index j e},
      (entries outer parent index site)[j]? = some e →
        Hangs Q [site] outer parent index (entries outer parent index site) j e)
    (he : (entriesAll outer parent index sites)[j]? = some e) :
    Hangs Q sites outer parent index (entriesAll outer parent index sites) j e := by
  induction sites generalizing index j with
  | nil => simp [entriesAll] at he
  | cons site rest ih =>
    rw [entriesAll] at he ⊢
    rcases Nat.lt_or_ge j (entries outer parent index site).length with hj | hj
    · rw [List.getElem?_append_left hj] at he
      exact (h site List.mem_cons_self he).append_right
    · rw [List.getElem?_append_right hj] at he
      have hrest := ih (fun site hsite => h site (List.mem_cons_of_mem _ hsite)) he
      rw [← Nat.add_sub_cancel' hj]
      show Hangs Q ([site] ++ rest) outer parent index _ _ e
      exact hrest.append_left

/-- Every entry tells of a function of the forest, and of the entry of the one around it. -/
theorem hangs_of_entries (site : FunctionSite) : Q site →
    (∀ site, Q site → ∀ inner ∈ site.inner, Q inner) → ∀ {outer parent index j e},
    (entries outer parent index site)[j]? = some e →
      Hangs Q [site] outer parent index (entries outer parent index site) j e := by
  induction site using FunctionSite.induct with
  | h path analysis inner ih =>
    intro hQ hclosed outer parent index j e he
    have hinner : ∀ {j e}, (entriesAll (analysis :: outer) (some index) (index + 1) inner)[j]? =
        some e → Hangs Q inner (analysis :: outer) (some index) (index + 1) _ j e :=
      hangs_of_entriesAll fun site hsite => ih site hsite (hclosed _ hQ site hsite) hclosed
    rw [entries] at he ⊢
    cases j with
    | zero =>
      cases he
      exact .top ⟨rfl, rfl⟩ List.mem_cons_self rfl rfl
    | succ j =>
      cases hinner he with
      | top hof hsite hparent houter =>
        exact .inside hof (Nat.succ_pos j) rfl ⟨rfl, rfl⟩ hQ hsite hparent houter
      | @inside _ _ g i hof hi hg hofg hQ' hsite hparent houter =>
        refine .inside hof (Nat.succ_lt_succ hi) hg hofg hQ' hsite ?_ houter
        rw [hparent, Nat.add_assoc, Nat.add_comm 1]

end FunctionSite

/-! ## Functions of a tree -/

namespace Node

/-- A function stands at the path. -/
def HasFunction (root : Node) (path : Path) : Prop :=
  ∃ node, root.at? path = some node ∧ node.kind = .funcWord

/-- The function at `outer` is the innermost of those around the place `inner`. -/
structure InnermostAround (root : Node) (outer inner : Path) : Prop where
  around : outer <:+ inner ∧ outer ≠ inner
  function : root.HasFunction outer
  innermost : ∀ path, path <:+ inner → path ≠ inner → root.HasFunction path → path <:+ outer

variable {root body node below : Node} {path rel outer outer' inner : Path} {a a' : Analysis}
  {s s' : Survey}

theorem InnermostAround.unique (h : root.InnermostAround outer inner)
    (h' : root.InnermostAround outer' inner) : outer = outer' := by
  have hle := h'.innermost outer h.around.1 h.around.2 h.function
  have hle' := h.innermost outer' h'.around.1 h'.around.2 h'.function
  exact hle.eq_of_length (Nat.le_antisymm hle.length_le hle'.length_le)

/-- There is no function between a body and a node of it. -/
theorem Reaches.not_hasFunction (h : body.Reaches Kind.SharesChild rel below) :
    ∀ between, between <:+ rel → between ≠ rel → ¬ body.HasFunction between := by
  induction h with
  | root => exact fun between hle hne => absurd (List.suffix_nil.1 hle) hne
  | @child path node index child h hstep hc ih =>
    rintro between hle hne ⟨n, hat, hkind⟩
    rcases List.suffix_cons_iff.1 hle with rfl | hle
    · exact hne rfl
    · by_cases hlast : between = path
      · subst hlast
        cases h.at?.symm.trans hat
        exact hstep.1 hkind
      · exact ih between hle hlast ⟨n, hat, hkind⟩

/-- The function of a body is the innermost around each node of the body. -/
theorem innermostAround_of_reaches (hfunction : root.HasFunction path)
    (hat : root.at? (2 :: path) = some body) (h : body.Reaches Kind.SharesChild rel below) :
    root.InnermostAround path (rel ++ 2 :: path) := by
  have hpath : path <:+ rel ++ 2 :: path := ⟨rel ++ [2], by simp⟩
  refine ⟨⟨hpath, fun he => ?_⟩, hfunction, fun between hle hne hbetween => ?_⟩
  · have hlength := congrArg List.length he
    simp at hlength
    omega
  · rcases List.suffix_or_suffix_of_suffix hle (List.suffix_append rel (2 :: path)) with
      hshort | ⟨rel', rfl⟩
    · rcases List.suffix_cons_iff.1 hshort with rfl | hshort
      · -- The body itself is no function, or it is the place that was asked for.
        obtain ⟨n, hn, hkind⟩ := hbetween
        cases hat.symm.trans hn
        exact absurd ⟨_, rfl, hkind⟩
          (h.not_hasFunction [] List.nil_suffix fun he => hne (he ▸ rfl))
      · exact hshort
    · obtain ⟨n, hn, hkind⟩ := hbetween
      rw [at?_append, hat] at hn
      refine absurd ⟨n, hn, hkind⟩ (h.not_hasFunction rel' ?_ fun he => hne (he ▸ rfl))
      exact List.suffix_append_self_iff.1 hle

/-- A function has one analysis. -/
theorem FunctionAt.unique (h : FunctionAt root path a body s)
    (h' : FunctionAt root path a' below s') : a = a' ∧ body = below ∧ s = s' := by
  obtain ⟨_, _, _, _, _, hat, hparameters, hchannels⟩ := h.node
  obtain ⟨_, _, _, _, _, hat', hparameters', hchannels'⟩ := h'.node
  cases hat.symm.trans hat'
  cases h.survey.symm.trans h'.survey
  refine ⟨?_, rfl, rfl⟩
  rw [h.analysis, h'.analysis, Except.ok.inj (hparameters.symm.trans hparameters'),
    Except.ok.inj (hchannels.symm.trans hchannels')]

end Node

namespace FunctionSite

/-- The survey of the tree reaches the function, which has the analysis and the inner functions
given. -/
inductive Found (root : Node) : FunctionSite → Prop
  | mk {path node a body s} (hreaches : root.Reaches Kind.SurveysChild path node)
    (hat : FunctionAt root path a body s) : Found root ⟨path, a, s.sites⟩

variable {root body : Node} {path : Path} {s : Survey} {site : FunctionSite}

/-- The functions directly inside a body are functions of its nodes. -/
theorem found_of_mem (hreaches : root.Reaches Kind.SurveysChild path body)
    (hs : body.survey path = .ok s) (hsite : site ∈ s.sites) : Found root site ∧
      ∃ rel below, body.Reaches Kind.SharesChild rel below ∧ site.path = rel ++ path := by
  obtain ⟨rel, below, own, hbelow, hnotes, hown⟩ :=
    (holds_iff (M := (site ∈ ·.sites)) ⟨List.not_mem_nil, fun _ _ => List.mem_append⟩ body hs).1
      hsite
  cases hnotes with
  | function hparameters hchannels hbody =>
    cases List.mem_singleton.1 hown
    have hreached := hreaches.trans (hbelow.mono fun _ _ h => h.2)
    exact ⟨.mk hreached ⟨⟨_, _, _, _, _, hreached.at?, hparameters, hchannels⟩, hbody, rfl⟩,
      rel, _, hbelow, rfl⟩
  | object | assignment | declaration | name => exact absurd hown List.not_mem_nil

theorem Found.hasFunction (h : Found root site) : root.HasFunction site.path := by
  cases h with
  | mk _ hat =>
    obtain ⟨_, _, _, _, _, hnode, -⟩ := hat.node
    exact ⟨_, hnode, rfl⟩

/-- The functions directly inside a function of the tree are such functions too. -/
theorem Found.inner {inside : FunctionSite} (h : Found root site) (hsite : inside ∈ site.inner) :
    Found root inside ∧ root.InnermostAround site.path inside.path := by
  have hfunction := h.hasFunction
  cases h with
  | mk hreaches hat =>
    obtain ⟨_, _, _, _, _, hnode, -⟩ := hat.node
    cases hreaches.at?.symm.trans hnode
    have hbody : root.Reaches Kind.SurveysChild (2 :: _) _ := .child hreaches rfl rfl
    obtain ⟨hfound, rel, below, hbelow, hpath⟩ := found_of_mem hbody hat.survey hsite
    exact ⟨hfound, hpath ▸ innermostAround_of_reaches hfunction hbody.at? hbelow⟩

end FunctionSite

namespace Survey

/-- The survey found a function at the path. -/
def Finds (s : Survey) (path : Path) : Prop :=
  ∀ outer parent index, ∃ e ∈ FunctionSite.entriesAll outer parent index s.sites, e.path = path

variable {a b s : Survey} {path path' : Path}

/-- What a part found, the whole found. -/
theorem PartOf.finds (h : a.PartOf b) (ha : a.Finds path) : b.Finds path := by
  induction h with
  | refl => exact ha
  | left _ c ih =>
    intro outer parent index
    obtain ⟨e, hmem, hpath⟩ := ih outer parent index
    rw [sites_append, FunctionSite.entriesAll_append]
    exact ⟨e, List.mem_append_left _ hmem, hpath⟩
  | right _ b ih =>
    intro outer parent index
    obtain ⟨e, hmem, hpath⟩ := ih outer parent _
    rw [sites_append, FunctionSite.entriesAll_append]
    exact ⟨e, List.mem_append_right _ hmem, hpath⟩

/-- A function with the functions of its body behind it. -/
theorem entriesAll_ofFunction (path : Path) (parameters channels : List String) (body : Survey)
    (outer : List Analysis) (parent : Option Nat) (index : Nat) :
    let a := Analysis.ofMentions parameters channels body.mentions
    FunctionSite.entriesAll outer parent index (ofFunction path parameters channels body).sites =
      ⟨⟨a, outer⟩, path, parent⟩ ::
        FunctionSite.entriesAll (a :: outer) (some index) (index + 1) body.sites := by
  simp [ofFunction, FunctionSite.entriesAll, FunctionSite.entries]

theorem finds_ofFunction (path : Path) (parameters channels : List String) (body : Survey) :
    (ofFunction path parameters channels body).Finds path := by
  intro outer parent index
  rw [entriesAll_ofFunction]
  exact ⟨_, List.mem_cons_self, rfl⟩

theorem Finds.inside (h : b.Finds path') (path : Path) (parameters channels : List String) :
    (ofFunction path parameters channels b).Finds path' := by
  intro outer parent index
  obtain ⟨e, hmem, hpath⟩ := h (.ofMentions parameters channels b.mentions :: outer) (some index)
    (index + 1)
  rw [entriesAll_ofFunction]
  exact ⟨e, List.mem_cons_of_mem _ hmem, hpath⟩

/-- The functions of a survey below the path stand in the order of the source. -/
structure Ordered (path : Path) (s : Survey) : Prop where
  below : ∀ outer parent index, ∀ e ∈ FunctionSite.entriesAll outer parent index s.sites,
    path <:+ e.path
  pairwise : ∀ outer parent index, (FunctionSite.entriesAll outer parent index s.sites).Pairwise
    fun f g => ¬ g.path <:+ f.path

/-- As `Ordered`, of children with the number `index` and higher ones. -/
structure OrderedFrom (path : Path) (index : Nat) (s : Survey) : Prop where
  below : ∀ outer parent start, ∀ e ∈ FunctionSite.entriesAll outer parent start s.sites,
    ∃ i, index ≤ i ∧ i :: path <:+ e.path
  pairwise : ∀ outer parent start, (FunctionSite.entriesAll outer parent start s.sites).Pairwise
    fun f g => ¬ g.path <:+ f.path

theorem ordered_of_no_sites (h : s.sites = []) : s.Ordered path := by
  constructor
  · intro outer parent index e he
    rw [h] at he
    exact absurd he List.not_mem_nil
  · intro outer parent index
    rw [h]
    exact .nil

theorem Ordered.ofFunction (h : s.Ordered (2 :: path)) (parameters channels : List String) :
    (ofFunction path parameters channels s).Ordered path := by
  constructor
  · intro outer parent index e he
    rw [entriesAll_ofFunction] at he
    rcases List.mem_cons.1 he with rfl | he
    · exact List.suffix_refl path
    · exact (List.suffix_cons 2 path).trans (h.below _ _ _ e he)
  · intro outer parent index
    rw [entriesAll_ofFunction]
    refine List.pairwise_cons.2 ⟨fun e he hle => ?_, h.pairwise ..⟩
    exact Nat.not_succ_le_self _ ((h.below _ _ _ e he).trans hle).length_le

theorem OrderedFrom.ordered {index : Nat} {s' : Survey} (h : s.OrderedFrom path index)
    (hsites : s'.sites = s.sites) : s'.Ordered path := by
  refine ⟨fun outer parent start e he => ?_, hsites ▸ h.pairwise⟩
  obtain ⟨i, -, hbelow⟩ := h.below outer parent start e (hsites ▸ he)
  exact (List.suffix_cons i path).trans hbelow

theorem Ordered.append {index : Nat} (ha : a.Ordered (index :: path))
    (hb : b.OrderedFrom path (index + 1)) : (a ++ b).OrderedFrom path index := by
  constructor
  · intro outer parent start e he
    rw [sites_append, FunctionSite.entriesAll_append] at he
    rcases List.mem_append.1 he with he | he
    · exact ⟨index, Nat.le_refl index, ha.below _ _ _ e he⟩
    · obtain ⟨i, hi, hbelow⟩ := hb.below _ _ _ e he
      exact ⟨i, Nat.le_of_succ_le hi, hbelow⟩
  · intro outer parent start
    rw [sites_append, FunctionSite.entriesAll_append]
    refine List.pairwise_append.2 ⟨ha.pairwise .., hb.pairwise .., fun f hf g hg hle => ?_⟩
    -- A path below one child does not go through a later one.
    obtain ⟨i, hi, hbelow⟩ := hb.below _ _ _ g hg
    have hsame : index :: path = i :: path :=
      List.IsSuffix.eq_of_length (List.suffix_of_suffix_length_le (ha.below _ _ _ f hf)
        (hbelow.trans hle) (Nat.le_refl _)) rfl
    cases hsame
    exact Nat.not_succ_le_self _ hi

end Survey

namespace Node

variable {path : Path} {s : Survey}

theorem orderedFrom_of_surveys {nodes : List Node} : ∀ {index : Nat} {s : Survey},
    surveys path index nodes = .ok s → (∀ node ∈ nodes, ∀ {path s}, survey path node = .ok s →
      s.Ordered path) → s.OrderedFrom path index := by
  induction nodes with
  | nil =>
    intro index s h _
    rw [surveys] at h
    cases h
    exact ⟨fun _ _ _ e he => absurd he List.not_mem_nil, fun _ _ _ => .nil⟩
  | cons first rest ih =>
    intro index s h hnodes
    obtain ⟨a, b, ha, hb, rfl⟩ := surveys_cons h
    exact (hnodes first List.mem_cons_self ha).append
      (ih hb fun node hn => hnodes node (List.mem_cons_of_mem _ hn))

theorem ordered_of_survey (node : Node) : ∀ {path : Path} {s : Survey},
    node.survey path = .ok s → s.Ordered path := by
  induction node using Node.induct with
  | h kind literal position children ih =>
    intro path s hs
    cases surveyed_of_survey hs with
    | function _ _ hbody => exact (ih _ (by simp) hbody).ofFunction ..
    | object | nothing => exact Survey.ordered_of_no_sites rfl
    | method _ h => exact (orderedFrom_of_surveys h fun node hn => ih node (by simp [hn])).ordered rfl
    | assignment _ _ h | declaration _ h | name h | other _ h =>
      exact (orderedFrom_of_surveys h ih).ordered rfl
    | field hobject =>
      have hinner := ih _ List.mem_cons_self hobject
      exact ⟨fun _ _ _ e he => (List.suffix_cons 0 path).trans (hinner.below _ _ _ e he),
        hinner.pairwise⟩

end Node

/-! ## Functions of a program -/

namespace Node

variable {path rel : Path} {node child below : Node} {s : Survey}

/-- A child that the survey goes to is surveyed, and the functions found in it are found. -/
theorem finds_of_surveysChild (h : node.survey path = .ok s) {i : Nat}
    (hstep : node.kind.SurveysChild i) (hc : node.children[i]? = some child) :
    ∃ s', child.survey (i :: path) = .ok s' ∧ ∀ q, s'.Finds q → s.Finds q := by
  obtain ⟨kind, literal, position, children⟩ := node
  by_cases hkind : kind = .funcWord
  · subst hkind
    cases hstep
    cases surveyed_of_survey h with
    | function _ _ hbody =>
      cases hc
      exact ⟨_, hbody, fun q hq => hq.inside _ _ _⟩
    | assignment hkind => simp at hkind
    | other hkind => exact absurd (by decide) hkind
  · obtain ⟨s', hs', hpart⟩ := survey_of_shares h ⟨hkind, hstep⟩ hc
    exact ⟨s', hs', fun q hq => hpart.finds hq⟩

theorem finds_of_reaches (h : node.survey path = .ok s)
    (hreaches : node.Reaches Kind.SurveysChild rel below) :
    ∃ s', below.survey (rel ++ path) = .ok s' ∧ ∀ q, s'.Finds q → s.Finds q := by
  induction hreaches with
  | root => exact ⟨s, h, fun _ hq => hq⟩
  | child _ hstep hc ih =>
    obtain ⟨s', hs', hfinds⟩ := ih
    obtain ⟨s'', hs'', hfinds'⟩ := finds_of_surveysChild hs' hstep hc
    exact ⟨s'', hs'', fun q hq => hfinds q (hfinds' q hq)⟩

end Node

namespace Program

/-- The entry with number `j` has as its parent the innermost function around, which is listed
before; outside all functions it has the top level. -/
inductive HasParent (p : Program) (j : Nat) (e : FunctionEntry) : Prop
  | top (hnone : ∀ path, path <:+ e.path → path ≠ e.path → ¬ p.root.HasFunction path)
    (hparent : e.parent = none) (houter : e.outer = [p.top])
  | function {i g} (hi : i < j) (hg : p.functions[i]? = some g)
    (hinnermost : p.root.InnermostAround g.path e.path) (hparent : e.parent = some i)
    (houter : e.outer = g.analysis :: g.outer)

variable {p : Program} {root node : Node} {path : Path} {e e' : FunctionEntry} {j : Nat}
  {site : FunctionSite}

theorem survey_root (hp : ofNode root = .ok p) :
    ∃ s, root.survey [] = .ok s ∧ p = ⟨root, .ofMentions [] [] s.mentions, s.sites⟩ := by
  obtain ⟨s, hs, h⟩ := bind_eq_ok_iff.1 hp
  exact ⟨s, hs, (Except.ok.inj h).symm⟩

theorem hangs (hp : ofNode root = .ok p) (he : p.functions[j]? = some e) :
    FunctionSite.Hangs (FunctionSite.Found root) p.sites [p.top] none 0 p.functions j e := by
  obtain ⟨s, hs, rfl⟩ := survey_root hp
  refine FunctionSite.hangs_of_entriesAll (fun site hsite => ?_) he
  exact FunctionSite.hangs_of_entries site (FunctionSite.found_of_mem .root hs hsite).1
    fun _ hfound _ hinner => (hfound.inner hinner).1

theorem hasParent (hp : ofNode root = .ok p) (he : p.functions[j]? = some e) :
    p.HasParent j e := by
  have hhangs := hangs hp he
  obtain ⟨s, hs, rfl⟩ := survey_root hp
  cases hhangs with
  | top hof hsite hparent houter =>
    obtain ⟨-, rel, below, hbelow, hpath⟩ := FunctionSite.found_of_mem .root hs hsite
    rw [List.append_nil, ← hof.path] at hpath
    exact .top (hpath ▸ hbelow.not_hasFunction) hparent houter
  | inside hof hi hg hofg hfound hsite hparent houter =>
    refine .function hi hg ?_ (hparent.trans (by rw [Nat.zero_add])) houter
    rw [hofg.path, hof.path]
    exact (hfound.inner hsite).2

/-- An entry tells of a function that the survey reaches. -/
theorem found_of_entry (hp : ofNode root = .ok p) (he : e ∈ p.functions) :
    ∃ site, FunctionSite.Found root site ∧ e.Of site := by
  obtain ⟨j, hj⟩ := List.getElem?_of_mem he
  cases hangs hp hj with
  | top hof hsite =>
    obtain ⟨s, hs, rfl⟩ := survey_root hp
    exact ⟨_, (FunctionSite.found_of_mem .root hs hsite).1, hof⟩
  | inside hof _ _ _ hfound hsite => exact ⟨_, (hfound.inner hsite).1, hof⟩

/-- The functions of a program are those that the survey reaches. -/
theorem exists_function_iff (hp : ofNode root = .ok p) : (∃ e ∈ p.functions, e.path = path) ↔
    ∃ node, root.Reaches Kind.SurveysChild path node ∧ node.kind = .funcWord := by
  constructor
  · rintro ⟨e, he, rfl⟩
    obtain ⟨site, hfound, hof⟩ := found_of_entry hp he
    rw [hof.path]
    cases hfound with
    | mk hreaches hat =>
      obtain ⟨_, _, _, _, _, hnode, -⟩ := hat.node
      cases hreaches.at?.symm.trans hnode
      exact ⟨_, hreaches, rfl⟩
  · rintro ⟨⟨kind, literal, position, children⟩, hreaches, rfl⟩
    obtain ⟨s, hs, rfl⟩ := survey_root hp
    obtain ⟨s', hs', hfinds⟩ := finds_of_reaches hs hreaches
    rw [List.append_nil] at hs'
    cases surveyed_of_survey hs' with
    | function => exact hfinds path (Survey.finds_ofFunction _ _ _ _) _ _ _
    | assignment hkind => simp at hkind
    | other hkind => exact absurd (by decide) hkind

/-- A function of the program has an analysis. -/
theorem analysis?_of_mem (he : e ∈ p.functions) : ∃ a, p.analysis? e.path = some a := by
  unfold analysis?
  cases hfind : p.functions.find? (·.path = e.path) with
  | none => exact absurd (decide_eq_true rfl) (List.find?_eq_none.1 hfind e he)
  | some e' => exact ⟨e'.analysis, rfl⟩

/-- A function that the survey reaches has its analysis. -/
theorem analysis?_of_reaches (hp : ofNode root = .ok p)
    (hreaches : root.Reaches Kind.SurveysChild path node) (hkind : node.kind = .funcWord) :
    ∃ a body s, p.analysis? path = some a ∧ FunctionAt root path a body s := by
  obtain ⟨f, hf, rfl⟩ := (exists_function_iff hp).2 ⟨node, hreaches, hkind⟩
  obtain ⟨a, ha⟩ := analysis?_of_mem hf
  obtain ⟨-, body, s, hat⟩ := functionAt_of_analysis? hp ha
  exact ⟨a, body, s, ha, hat⟩

theorem exists_analysis_iff (hp : ofNode root = .ok p) : (∃ a, p.analysis? path = some a) ↔
    ∃ node, root.Reaches Kind.SurveysChild path node ∧ node.kind = .funcWord := by
  constructor
  · rintro ⟨a, ha⟩
    obtain ⟨e, he, -⟩ := Option.map_eq_some_iff.1 ha
    refine (exists_function_iff hp).1 ⟨e, List.mem_of_find?_eq_some he, ?_⟩
    simpa using List.find?_some he
  · rintro ⟨node, hreaches, hkind⟩
    obtain ⟨a, -, -, ha, -⟩ := analysis?_of_reaches hp hreaches hkind
    exact ⟨a, ha⟩

/-- Every function that the survey found has an analysis in the program. -/
theorem analysis?_of_finds {s : Survey} (hs : root.survey [] = .ok s) (hp : ofNode root = .ok p)
    (h : s.Finds path) : ∃ a, p.analysis? path = some a := by
  obtain ⟨s', hs', rfl⟩ := survey_root hp
  cases hs.symm.trans hs'
  obtain ⟨e, hmem, rfl⟩ := h [.ofMentions [] [] s.mentions] none 0
  exact analysis?_of_mem (p := ⟨root, _, _⟩) hmem

/-- A function comes before those inside it, and there are no others at its path. -/
theorem pairwise_functions (hp : ofNode root = .ok p) :
    p.functions.Pairwise fun f g => ¬ g.path <:+ f.path := by
  obtain ⟨s, hs, rfl⟩ := survey_root hp
  exact (ordered_of_survey root hs).pairwise ..

/-- There is one function at a path. -/
theorem function_unique (hp : ofNode root = .ok p) (he : e ∈ p.functions)
    (he' : e' ∈ p.functions) (hpath : e.path = e'.path) : e = e' := by
  obtain ⟨i, hi, rfl⟩ := List.getElem_of_mem he
  obtain ⟨j, hj, rfl⟩ := List.getElem_of_mem he'
  have hbefore := List.pairwise_iff_getElem.1 (pairwise_functions hp)
  rcases Nat.lt_trichotomy i j with hlt | rfl | hlt
  · exact absurd (hpath ▸ List.suffix_refl _) (hbefore i j hi hj hlt)
  · rfl
  · exact absurd (hpath ▸ List.suffix_refl _) (hbefore j i hj hi hlt)

/-- A function that the survey reaches has an entry. -/
theorem entry_of_found (hp : ofNode root = .ok p) (h : FunctionSite.Found root site) :
    ∃ e ∈ p.functions, e.Of site := by
  cases h with
  | @mk path _ a _ _ hreaches hat =>
    obtain ⟨_, _, _, _, _, hnode, -⟩ := hat.node
    cases hreaches.at?.symm.trans hnode
    obtain ⟨e, he, hpath⟩ := (exists_function_iff hp).2 ⟨_, hreaches, rfl⟩
    obtain ⟨site, hfound, hof⟩ := found_of_entry hp he
    cases hfound with
    | mk _ hat' =>
      cases hpath.symm.trans hof.path
      obtain ⟨rfl, -, rfl⟩ := hat.unique hat'
      exact ⟨e, he, hof⟩

/-- Functions that stand directly inside each other in the tree do so in the program. -/
theorem inner_of_innermostAround (hp : ofNode root = .ok p) (he : e ∈ p.functions)
    (he' : e' ∈ p.functions) (h : root.InnermostAround e.path e'.path) :
    ∃ around site, FunctionSite.Found root around ∧ e.Of around ∧ e'.Of site ∧
      site ∈ around.inner := by
  obtain ⟨j, hj⟩ := List.getElem?_of_mem he'
  cases hangs hp hj with
  | top hof hsite =>
    obtain ⟨s, hs, rfl⟩ := survey_root hp
    obtain ⟨-, rel, below, hbelow, hpath⟩ := FunctionSite.found_of_mem .root hs hsite
    rw [List.append_nil, ← hof.path] at hpath
    exact absurd h.function (hbelow.not_hasFunction _ (hpath ▸ h.around.1) (hpath ▸ h.around.2))
  | inside hof _ hg hofg hfound hsite =>
    have haround := (hfound.inner hsite).2
    rw [← hof.path, ← hofg.path] at haround
    cases function_unique hp he (List.mem_of_getElem? hg) (h.unique haround)
    exact ⟨_, _, hfound, hofg, hof, hsite⟩

end Program

end Scripting

import Scripting.Node.Outline
import Scripting.Proofs.Derivations

/-!
# Proofs: what the parser keeps of its tokens

The nodes that are derived from a row of tokens show which tokens these were. Names, literals and
the words that stand alone become leaves, in the order in which they were taken. An operator or a
word that begins a construct becomes a node above its operands, so of these the order changes, but
each is there once. An `if` behind an `else` goes on with a construct and makes no node. All other
tokens only separate and enclose, and the nodes of their kinds say nothing about them.

A row of tokens thus shows in a row of nodes, in a way that goes along with appending. Every rule of
the derivations keeps what it takes, and the whole parser takes all there is.
-/

namespace Scripting

namespace Kind

/-- Do tokens of the kind become leaves? -/
def isLeaf : Kind → Bool
  | identifier | int | float | string | trueWord | falseWord | nilWord | breakWord
  | continueWord => true
  | _ => false

/-- Do tokens of the kind, the operators and the words that begin something, become the nodes of
their constructs? -/
def isConstruct : Kind → Bool
  | assign | default | accumulate | plus | minus | times | divide | modulo | not | and | or | equal
  | notEqual | less | lessEqual | greater | greaterEqual | funcWord | ifWord | whileWord
  | returnWord | externWord => true
  | _ => false

/-- Tokens of the kind only separate and enclose, and nothing is said about nodes of the kind. -/
def Silent (kind : Kind) : Prop :=
  kind.isLeaf = false ∧ kind.isConstruct = false ∧ kind ≠ .elseWord

instance : DecidablePred Silent := fun kind =>
  inferInstanceAs (Decidable (kind.isLeaf = false ∧ kind.isConstruct = false ∧ kind ≠ .elseWord))

end Kind

namespace Token

/-- The tokens of a row that begin a construct: the operators and the words, but no `if` that
follows an `else`. `last` is the kind of the token before the row. -/
def constructs : (last : Option Kind) → List Token → List Token
  | _, [] => []
  | last, t :: rest =>
    if t.kind.isConstruct ∧ ¬(t.kind = .ifWord ∧ last = some .elseWord) then
      t :: constructs (some t.kind) rest
    else constructs (some t.kind) rest

variable {last : Option Kind} {rest : List Token}

theorem constructs_append (row more : List Token) : ∀ last : Option Kind,
    constructs last (row ++ more) =
      constructs last row ++ constructs ((row.getLast?.map Token.kind).or last) more := by
  induction row with
  | nil => exact fun _ => rfl
  | cons t rest ih =>
    intro last
    have hlast : ((t :: rest).getLast?.map Token.kind).or last =
        (rest.getLast?.map Token.kind).or (some t.kind) := by
      rw [List.getLast?_cons]
      cases rest.getLast? <;> rfl
    rw [List.cons_append, constructs, constructs, hlast, ih]
    split <;> rfl

/-- Only an `else` before a row matters, and only for an `if` at its head. -/
theorem constructs_eq (h : last ≠ some .elseWord ∨ ∀ t ∈ rest.head?, t.kind ≠ .ifWord) :
    constructs last rest = constructs none rest := by
  cases rest with
  | nil => rfl
  | cons t rest =>
    have hnone : ∀ last : Option Kind, last ≠ some .elseWord ∨ t.kind ≠ .ifWord →
        (t.kind.isConstruct ∧ ¬(t.kind = .ifWord ∧ last = some .elseWord) ↔
          t.kind.isConstruct) := by
      rintro last (h | h)
      · exact and_iff_left fun hif => h hif.2
      · exact and_iff_left fun hif => h hif.1
    have h : last ≠ some .elseWord ∨ t.kind ≠ .ifWord := h.imp_right fun h => h t rfl
    simp only [constructs, hnone last h, hnone none (.inl nofun)]

/-- The leaves and constructs among some tokens are those that show in a row of nodes. -/
structure Keeps (taken nodes : List Token) : Prop where
  leaves : nodes.filter (·.kind.isLeaf) = taken.filter (·.kind.isLeaf)
  perm : (nodes.filter (·.kind.isConstruct)).Perm (constructs none taken)
  /-- No construct is cut off behind its `else`. -/
  last : ∀ t ∈ taken.getLast?, t.kind ≠ .elseWord

variable {t : Token} {taken more nodes first others : List Token}

theorem Keeps.nil : Keeps [] [] :=
  ⟨rfl, .nil, nofun⟩

/-- Rows follow one another. -/
theorem Keeps.append (h : Keeps taken nodes) (h' : Keeps more others) :
    Keeps (taken ++ more) (nodes ++ others) := by
  refine ⟨?_, ?_, fun t ht => ?_⟩
  · rw [List.filter_append, List.filter_append, h.leaves, h'.leaves]
  · have hlast : (taken.getLast?.map Token.kind).or none ≠ some .elseWord := by
      rw [Option.or_none]
      intro helse
      obtain ⟨t, ht, hkind⟩ := Option.map_eq_some_iff.1 helse
      exact h.last t ht hkind
    rw [List.filter_append, constructs_append, constructs_eq (.inl hlast)]
    exact h.perm.append h'.perm
  · rw [List.getLast?_append] at ht
    cases hmore : more.getLast? with
    | none => exact h.last t (by simpa [hmore] using ht)
    | some u => exact h'.last t (by simpa [hmore] using ht)

/-- A token with its own node. -/
theorem Keeps.single (h : t.kind.isLeaf = true ∨ t.kind.isConstruct = true) : Keeps [t] [t] := by
  refine ⟨rfl, ?_, fun u hu => ?_⟩
  · rw [constructs]
    cases hkind : t.kind.isConstruct <;> simp [hkind, constructs]
  · cases hu
    intro helse
    have helse : t.kind = .elseWord := helse
    rw [helse] at h
    exact absurd h (by decide)

/-- A token that makes no node. -/
theorem Keeps.silent (h : t.kind.Silent) : Keeps [t] [] := by
  obtain ⟨hleaf, hconstruct, helse⟩ := h
  refine ⟨?_, ?_, fun t ht => ?_⟩
  · simp [hleaf]
  · simp [constructs, hconstruct]
  · cases ht
    exact helse

/-- An `else` and an `if` go on with a construct. -/
theorem Keeps.elseIf {t' : Token} (h : t.kind = .elseWord) (h' : t'.kind = .ifWord) :
    Keeps [t, t'] [] := by
  refine ⟨?_, ?_, fun u hu => ?_⟩
  · simp [h, h', Kind.isLeaf]
  · simp [constructs, h, h', Kind.isConstruct]
  · cases hu
    rw [List.getLast_cons_cons, List.getLast_singleton, h']
    decide

/-- An `else` without an `if` makes no difference. -/
theorem Keeps.elseOnly (h : t.kind = .elseWord) (hif : ∀ t ∈ taken.head?, t.kind ≠ .ifWord)
    (hne : taken ≠ []) (hk : Keeps taken nodes) : Keeps (t :: taken) nodes := by
  refine ⟨?_, ?_, fun u hu => hk.last u ?_⟩
  · rw [hk.leaves, List.filter_cons, if_neg (by simp [h, Kind.isLeaf])]
  · rw [constructs, if_neg (by simp [h, Kind.isConstruct]), constructs_eq (.inr hif)]
    exact hk.perm
  · obtain ⟨t', rest, rfl⟩ := List.exists_cons_of_ne_nil hne
    rwa [List.getLast?_cons_cons] at hu

/-- Nodes of silent kinds may be added anywhere, and left out. -/
theorem keeps_cons_iff {kind : Kind} {lexeme : String} {position : Position} (h : kind.Silent) :
    Keeps taken (⟨kind, lexeme, position⟩ :: nodes) ↔ Keeps taken nodes := by
  have hleaves : ((⟨kind, lexeme, position⟩ : Token) :: nodes).filter (·.kind.isLeaf) =
      nodes.filter (·.kind.isLeaf) := by
    simp [h.1]
  have hconstructs : ((⟨kind, lexeme, position⟩ : Token) :: nodes).filter (·.kind.isConstruct) =
      nodes.filter (·.kind.isConstruct) := by
    simp [h.2.1]
  exact ⟨fun hk => ⟨hleaves ▸ hk.leaves, hconstructs ▸ hk.perm, hk.last⟩,
    fun hk => ⟨hleaves ▸ hk.leaves, hconstructs ▸ hk.perm, hk.last⟩⟩

/-- The node of a construct may come before its operands. -/
theorem Keeps.front (h : Keeps taken (first ++ t :: others)) (ht : t.kind.isLeaf = false) :
    Keeps taken (t :: (first ++ others)) := by
  refine ⟨?_, ?_, h.last⟩
  · rw [← h.leaves]
    simp [ht]
  · exact (List.perm_middle.symm.filter _).trans h.perm

end Token

namespace Node

/-! ## The nodes of a tree -/

mutual

theorem map_outline (depth depth' : Nat) : ∀ node : Node,
    (outline depth node).map Prod.snd = (outline depth' node).map Prod.snd
  | ⟨_, _, _, children⟩ => by
    rw [outline, outline, List.map_cons, List.map_cons, map_outlines (depth + 1) (depth' + 1)]

theorem map_outlines (depth depth' : Nat) : ∀ nodes : List Node,
    (outlines depth nodes).map Prod.snd = (outlines depth' nodes).map Prod.snd
  | [] => rfl
  | node :: rest => by
    rw [outlines, outlines, List.map_append, List.map_append, map_outline depth depth' node,
      map_outlines depth depth' rest]

end

/-- The token that a node shows. -/
def asToken (node : Node) : Token :=
  ⟨node.kind, node.literal, node.position⟩

/-- The nodes of a tree as tokens, each before those below it. -/
def preorder (node : Node) : List Token :=
  ((node.outline 0).map Prod.snd).map asToken

/-- The nodes of several trees as tokens. -/
def preorders (nodes : List Node) : List Token :=
  nodes.flatMap preorder

@[simp] theorem preorders_nil : preorders [] = [] :=
  rfl

@[simp] theorem preorders_cons (node : Node) (rest : List Node) :
    preorders (node :: rest) = node.preorder ++ preorders rest :=
  rfl

@[simp] theorem preorders_append (nodes more : List Node) :
    preorders (nodes ++ more) = preorders nodes ++ preorders more :=
  List.flatMap_append

theorem map_asToken_outlines (depth : Nat) (nodes : List Node) :
    ((outlines depth nodes).map Prod.snd).map asToken = preorders nodes := by
  induction nodes with
  | nil => rfl
  | cons node rest ih =>
    rw [outlines, List.map_append, List.map_append, ih, map_outline depth 0 node]
    rfl

@[simp] theorem preorder_mk (kind : Kind) (literal : String) (position : Position)
    (children : List Node) : preorder ⟨kind, literal, position, children⟩ =
      ⟨kind, literal, position⟩ :: preorders children := by
  rw [preorder, outline, List.map_cons, List.map_cons, map_asToken_outlines]
  rfl

@[simp] theorem preorder_ofToken (token : Token) (children : List Node) :
    (ofToken token children).preorder = token :: preorders children :=
  preorder_mk ..

end Node

namespace Node

open Token

/-! ## Derivations -/

/-- An application shows the callee and the arguments, also where it takes a field apart. -/
theorem keeps_applied {paren : Token} {callee : Node} {arguments : List Node}
    {before taken : List Token} (h : Keeps before (preorders [callee]))
    (h' : Keeps taken (preorders arguments)) :
    Keeps (before ++ taken) (preorders [applied paren callee arguments]) := by
  simp only [preorders_cons, preorders_nil, List.append_nil] at h ⊢
  unfold applied
  split
  · rw [preorder_mk, keeps_cons_iff (by decide)] at h
    rw [preorder_mk, keeps_cons_iff (by decide)]
    simpa using h.append h'
  · rw [preorder_mk, keeps_cons_iff (by decide)]
    exact h.append h'

theorem keeps_commaItems {left : Node} {before : List Token}
    (h : Keeps before (preorders [left])) : Keeps before (preorders (commaItems left)) := by
  obtain ⟨kind, literal, position, children⟩ := left
  unfold commaItems
  split
  · next hkind =>
    cases hkind
    simpa [keeps_cons_iff (show Kind.comma.Silent by decide)] using h
  · exact h

/-- A block begins with a brace. -/
theorem Derives.head_of_block {taken : List Token} {nodes : List Node}
    (h : Derives .block taken nodes) : taken ≠ [] ∧ ∀ t ∈ taken.head?, t.kind ≠ .ifWord := by
  cases h with
  | block hkind =>
    refine ⟨List.cons_ne_nil _ _, ?_⟩
    rintro t ⟨⟩
    rw [hkind]
    decide

section

variable {t : Token} {children : List Node} {taken : List Token}

/-- A token with a node of its own comes before what is below the node. -/
theorem keeps_ofToken (ht : t.kind.isLeaf = true ∨ t.kind.isConstruct = true)
    (h : Keeps taken (preorders children)) :
    Keeps (t :: taken) (preorders [ofToken t children]) := by
  simpa using (Keeps.single ht).append h

/-- A node of a silent kind shows what is below it. -/
theorem keeps_silent_iff {kind : Kind} {literal : String} {position : Position}
    (h : kind.Silent) : Keeps taken (preorders [⟨kind, literal, position, children⟩]) ↔
      Keeps taken (preorders children) := by
  rw [preorders_cons, preorders_nil, List.append_nil, preorder_mk]
  exact keeps_cons_iff h

end

/-- The tokens of a phrase show in its nodes. -/
theorem Derives.keeps {phrase : Phrase} {taken : List Token} {nodes : List Node}
    (h : Derives phrase taken nodes) : Keeps taken (preorders nodes) := by
  have hleaves : ∀ kind ∈ Kind.leaves, kind.isLeaf = true := by decide
  have hbinary : ∀ kind ∈ Kind.binary, kind.isConstruct = true ∧ kind.isLeaf = false := by decide
  have hclosers : ∀ kind ∈ Kind.closers, kind.Silent := by decide
  -- Tokens that only separate or enclose may be added on both sides.
  have hfront : ∀ {t : Token} {kind : Kind} {taken nodes}, t.kind = kind → kind.Silent →
      Keeps taken nodes → Keeps (t :: taken) nodes :=
    fun hkind hsilent h => (Keeps.silent (hkind ▸ hsilent)).append h
  have hback : ∀ {t : Token} {kind : Kind} {taken nodes}, t.kind = kind → kind.Silent →
      Keeps taken nodes → Keeps (taken ++ [t]) nodes := by
    intro t kind taken nodes hkind hsilent h
    simpa using h.append (Keeps.silent (hkind ▸ hsilent))
  induction h with
  | leaf hkind => exact keeps_ofToken (.inl (hleaves _ hkind)) .nil
  | @unit t _ hkind hclose =>
    have hsilent : t.kind.Silent := hkind ▸ by decide
    exact (keeps_silent_iff hsilent).2 (hfront rfl hsilent (.silent (hclose ▸ by decide)))
  | group hkind hclose _ ih => exact hfront hkind (by decide) (hback hclose (by decide) ih)
  | sign hkind _ ih =>
    refine keeps_ofToken (.inr ?_) ih
    rcases hkind with hkind | hkind <;> exact hkind ▸ rfl
  | bareReturn hkind => exact keeps_ofToken (.inr (hkind ▸ rfl)) .nil
  | valueReturn hkind _ ih | declaration hkind _ ih => exact keeps_ofToken (.inr (hkind ▸ rfl)) ih
  | @function t bracket first p c b parameters channels body hkind hbracket _ _ _ _ ihparameters
      ihchannels ihbody =>
    have hparameters : Keeps p
        (preorders [⟨.leftParen, "params", bracket.position, parameters⟩]) :=
      (keeps_silent_iff (by decide)).2 ihparameters
    have hchannels : Keeps c
        (preorders [⟨.leftBracket, "channels", first.position, channels⟩]) :=
      (keeps_silent_iff (by decide)).2 ihchannels
    refine keeps_ofToken (.inr (hkind ▸ rfl)) ?_
    simpa using hfront hbracket (by decide) (hparameters.append (hchannels.append ihbody))
  | conditional hkind _ _ _ ihcondition ihbody ihrest =>
    refine keeps_ofToken (.inr (hkind ▸ rfl)) ?_
    simpa using ihcondition.append (ihbody.append ihrest)
  | loop hkind _ _ ihcondition ihbody =>
    refine keeps_ofToken (.inr (hkind ▸ rfl)) ?_
    simpa using ihcondition.append ihbody
  | operation hkind _ _ ihleft ihright =>
    -- The node of an operator comes before its left operand, which is taken before it.
    obtain ⟨hconstruct, hleaf⟩ := hbinary _ hkind
    have h := ihleft.append ((Keeps.single (.inr hconstruct)).append ihright)
    simpa using h.front hleaf
  | comma hkind _ _ ihleft ihitem =>
    refine (keeps_silent_iff (hkind ▸ by decide)).2 ?_
    simpa using (keeps_commaItems ihleft).append (hfront hkind (by decide) ihitem)
  | application hkind _ _ ihcallee iharguments =>
    exact keeps_applied ihcallee (hfront hkind (by decide) iharguments)
  | index hkind hclose _ _ ihleft ihinner =>
    refine (keeps_silent_iff (hkind ▸ by decide)).2 ?_
    simpa using ihleft.append (hfront hkind (by decide) (hback hclose (by decide) ihinner))
  | @field t name _ _ hkind hname _ ihleft =>
    have hfield : Keeps [name] (preorders [ofToken name []]) :=
      keeps_ofToken (.inl (hname ▸ rfl)) .nil
    refine (keeps_silent_iff (hkind ▸ by decide)).2 ?_
    simpa using ihleft.append (hfront hkind (by decide) hfield)
  | item _ ih => exact ih
  | moreItems hkind _ _ ih ihmore =>
    simpa using ih.append (hfront hkind (by decide) ihmore)
  | emptyList hcloser hclose => exact .silent (hclose ▸ hclosers _ hcloser)
  | list hcloser hclose _ ih => exact hback hclose (hclosers _ hcloser) ih
  | nothing | noBranch | noChannels => exact .nil
  | semicolon hkind _ ih => exact hfront hkind (by decide) ih
  | someChannels hkind _ ih => exact hfront hkind (by decide) ih
  | statement _ _ ih ihmore => simpa using ih.append ihmore
  | block hkind hclose _ _ ih =>
    exact (keeps_silent_iff (by decide)).2 (hfront hkind (by decide) (hback hclose (by decide) ih))
  | lastBranch hkind hbody ih => exact ih.elseOnly hkind hbody.head_of_block.2 hbody.head_of_block.1
  | branch hkind hkind' _ _ _ ihcondition ihbody ihrest =>
    simpa using (Keeps.elseIf hkind hkind').append (ihcondition.append (ihbody.append ihrest))

/-! ## Whole programs -/

/-- Parsing loses, doubles and reorders nothing. The names, literals and words that stand alone are
the leaves of the tree, in the same order; the operators and the words that begin a construct,
without each `if` behind an `else`, are its inner nodes. Nothing behind the first end is read. -/
theorem tokens_of_ofTokens {tokens : List Token} {root : Node} (h : ofTokens tokens = .ok root) :
    root.preorder.filter (·.kind.isLeaf) =
        (tokens.takeWhile (·.kind ≠ .finish)).filter (·.kind.isLeaf) ∧
      (root.preorder.filter (·.kind.isConstruct)).Perm
        (constructs none (tokens.takeWhile (·.kind ≠ .finish))) := by
  obtain ⟨children, hchildren, rfl⟩ := derives_of_ofTokens h
  have hroot : Keeps (Stream.ofTokens tokens).rest (preorder ⟨.statements, Kind.statements.name,
      (Stream.ofTokens tokens).head.position, children⟩) := by
    rw [preorder_mk, keeps_cons_iff (by decide)]
    exact hchildren.keeps
  exact ⟨hroot.leaves, hroot.perm⟩

/-- A method call, an operator that comes before its operands, and a token behind the end. -/
theorem tokens_of_ofTokens_methodCall : ∃ root, ofTokens [⟨.identifier, "o", ⟨1, 1⟩⟩,
      ⟨.period, ".", ⟨1, 2⟩⟩, ⟨.identifier, "m", ⟨1, 3⟩⟩, ⟨.leftParen, "(", ⟨1, 4⟩⟩,
      ⟨.identifier, "a", ⟨1, 5⟩⟩, ⟨.times, "*", ⟨1, 6⟩⟩, ⟨.int, "2", ⟨1, 7⟩⟩,
      ⟨.plus, "+", ⟨1, 8⟩⟩, ⟨.identifier, "a", ⟨1, 9⟩⟩, ⟨.rightParen, ")", ⟨1, 10⟩⟩,
      ⟨.semicolon, ";", ⟨1, 11⟩⟩, ⟨.finish, "", ⟨1, 12⟩⟩, ⟨.identifier, "b", ⟨2, 1⟩⟩] = .ok root ∧
    root.preorder.filter (·.kind.isLeaf) = [⟨.identifier, "o", ⟨1, 1⟩⟩, ⟨.identifier, "m", ⟨1, 3⟩⟩,
      ⟨.identifier, "a", ⟨1, 5⟩⟩, ⟨.int, "2", ⟨1, 7⟩⟩, ⟨.identifier, "a", ⟨1, 9⟩⟩] ∧
    (root.preorder.filter (·.kind.isConstruct)).Perm
      [⟨.times, "*", ⟨1, 6⟩⟩, ⟨.plus, "+", ⟨1, 8⟩⟩] :=
  Exists.imp (fun _ h => ⟨h, tokens_of_ofTokens h⟩) ⟨_, rfl⟩

end Node

end Scripting

import Mathlib.Data.List.Forall2
import Scripting.Node.Printer

/-!
# Proofs: s-expressions are read in one way

An s-expression is taken apart from the left. What it begins with tells a list, a quoted text and a
bare one apart, and each of them shows where it ends: a bare text before the first blank or bracket,
a quoted one at the first quote that is not a part of an escape, and a list at its bracket. Each
step is stated with whatever text follows, so that the steps can be put together.

An empty text would leave nothing to see, and a bare one that begins with a quote would pass for a
quoted one.
-/

namespace Scripting

/-! ## Quoted texts -/

namespace Text

theorem digitChar_injective : ∀ m < 16, ∀ n < 16, Nat.digitChar m = Nat.digitChar n → m = n := by
  decide

/-- The last hexadecimal digit of a number and those before it. -/
theorem toDigits_eq (n : Nat) : Nat.toDigits 16 n =
    if n < 16 then [n.digitChar] else Nat.toDigits 16 (n / 16) ++ [(n % 16).digitChar] :=
  Nat.toDigits_eq_if (by decide)

theorem toDigits_injective : Function.Injective (Nat.toDigits 16) := by
  intro m
  induction m using Nat.strongRecOn with
  | ind m ih =>
    intro n h
    rw [toDigits_eq m, toDigits_eq n] at h
    by_cases hm : m < 16 <;> by_cases hn : n < 16
    · rw [if_pos hm, if_pos hn] at h
      exact digitChar_injective m hm n hn (List.singleton_inj.1 h)
    · rw [if_pos hm, if_neg hn] at h
      have hfront := (List.append_singleton_inj.1 ((List.nil_append _).trans h)).1
      exact absurd hfront.symm Nat.toDigits_ne_nil
    · rw [if_neg hm, if_pos hn] at h
      have hfront := (List.append_singleton_inj.1 (h.trans (List.nil_append _).symm)).1
      exact absurd hfront Nat.toDigits_ne_nil
    · rw [if_neg hm, if_neg hn] at h
      obtain ⟨hfront, hlast⟩ := List.append_singleton_inj.1 h
      have hquotient := ih (m / 16) (by omega) hfront
      have hremainder := digitChar_injective (m % 16) (by omega) (n % 16) (by omega) hlast
      omega

theorem brace_not_mem_toDigits (n : Nat) : '}' ∉ Nat.toDigits 16 n := by
  have hdigit : ∀ m < 16, '}' ≠ Nat.digitChar m := by decide
  induction n using Nat.strongRecOn with
  | ind n ih =>
    rw [toDigits_eq]
    split
    · next hn => exact fun hmem => hdigit n hn (List.mem_singleton.1 hmem)
    · rw [List.mem_append, not_or]
      exact ⟨ih (n / 16) (by omega), fun hmem => hdigit _ (by omega) (List.mem_singleton.1 hmem)⟩

/-- A text without stops shows where it ends, if what follows it begins with a stop. -/
theorem append_inj_of_stop {stop : Char → Prop} {text text' s t : List Char}
    (htext : ∀ c ∈ text, ¬ stop c) (htext' : ∀ c ∈ text', ¬ stop c) (hs : ∀ c ∈ s.head?, stop c)
    (ht : ∀ c ∈ t.head?, stop c) (h : text ++ s = text' ++ t) : text = text' ∧ s = t := by
  induction text generalizing text' with
  | nil =>
    cases text' with
    | nil => exact ⟨rfl, h⟩
    | cons c text' =>
      have hc : s.head? = some c := congrArg List.head? h
      exact absurd (hs c hc) (htext' c List.mem_cons_self)
  | cons c text ih =>
    obtain ⟨hc, htext⟩ := List.forall_mem_cons.1 htext
    cases text' with
    | nil =>
      have hhead : t.head? = some c := (congrArg List.head? h).symm
      exact absurd (ht c hhead) hc
    | cons c' text' =>
      obtain ⟨rfl, htail⟩ := List.cons.inj h
      obtain ⟨rfl, hrest⟩ := ih htext (List.forall_mem_cons.1 htext').2 htail
      exact ⟨rfl, hrest⟩

/-- The letters behind a backslash and what they stand for. -/
def letters : List (Char × Char) :=
  [('0', '\x00'), ('t', '\t'), ('r', '\r'), ('n', '\n'), ('"', '"'), ('\\', '\\')]

/-- The three ways in which a character is written between quotes. -/
inductive Writes (c : Char) : List Char → Prop
  | raw (hquote : c ≠ '"') (hslash : c ≠ '\\') : Writes c [c]
  | letter {l} (h : (l, c) ∈ letters) : Writes c ['\\', l]
  | codePoint : Writes c ('\\' :: 'u' :: '{' :: (Nat.toDigits 16 c.toNat ++ ['}']))

theorem writes_escaped (c : Char) : Writes c (escaped c) := by
  unfold escaped
  split
  case h_7 hquote hslash =>
    split
    · exact .raw hquote hslash
    · exact .codePoint
  all_goals exact .letter (by decide)

theorem letters_functional {l c d : Char} (hc : (l, c) ∈ letters) (hd : (l, d) ∈ letters) :
    c = d := by
  have h : ∀ p ∈ letters, ∀ q ∈ letters, p.1 = q.1 → p.2 = q.2 := by decide
  exact h _ hc _ hd rfl

theorem letter_ne_u {l c : Char} (h : (l, c) ∈ letters) : l ≠ 'u' := by
  have hall : ∀ p ∈ letters, p.1 ≠ 'u' := by decide
  exact hall _ h

/-- What is written for a character shows which one it is and where it ends. -/
theorem escaped_append_inj {c d : Char} {s t : List Char}
    (h : escaped c ++ s = escaped d ++ t) : c = d ∧ s = t := by
  have hc := writes_escaped c
  have hd := writes_escaped d
  generalize escaped c = written at hc h
  generalize escaped d = written' at hd h
  cases hc with
  | raw hquote hslash =>
    cases hd with
    | raw => exact List.cons.inj h
    | letter | codePoint => exact absurd (List.cons.inj h).1 hslash
  | letter hl =>
    cases hd with
    | raw hquote hslash => exact absurd (List.cons.inj h).1.symm hslash
    | letter hl' =>
      cases h
      exact ⟨letters_functional hl hl', rfl⟩
    | codePoint =>
      cases h
      exact absurd rfl (letter_ne_u hl)
  | codePoint =>
    cases hd with
    | raw hquote hslash => exact absurd (List.cons.inj h).1.symm hslash
    | letter hl =>
      cases h
      exact absurd rfl (letter_ne_u hl)
    | codePoint =>
      have hdigits : Nat.toDigits 16 c.toNat ++ '}' :: s = Nat.toDigits 16 d.toNat ++ '}' :: t := by
        simpa using h
      have hbrace : ∀ n, ∀ e ∈ Nat.toDigits 16 n, ¬ e = '}' := fun n e he heq =>
        brace_not_mem_toDigits n (heq ▸ he)
      have hstop : ∀ more : List Char, ∀ e ∈ ('}' :: more).head?, e = '}' :=
        fun _ _ he => (Option.some.inj he).symm
      obtain ⟨heq, hrest⟩ :=
        append_inj_of_stop (hbrace _) (hbrace _) (hstop s) (hstop t) hdigits
      exact ⟨Char.toNat_inj.1 (toDigits_injective heq), (List.cons.inj hrest).2⟩

/-- No character is written with a quote at its start. -/
theorem escaped_head (c : Char) : ∃ d rest, escaped c = d :: rest ∧ d ≠ '"' := by
  have h := writes_escaped c
  generalize escaped c = written at h
  cases h with
  | raw hquote => exact ⟨_, _, rfl, hquote⟩
  | letter | codePoint => exact ⟨_, _, rfl, by decide⟩

theorem escapes_append_inj {text text' s t : List Char}
    (h : text.flatMap escaped ++ '"' :: s = text'.flatMap escaped ++ '"' :: t) :
    text = text' ∧ s = t := by
  induction text generalizing text' with
  | nil =>
    cases text' with
    | nil => exact ⟨rfl, (List.cons.inj h).2⟩
    | cons c text' =>
      obtain ⟨d, rest, hwritten, hd⟩ := escaped_head c
      rw [List.flatMap_cons, hwritten] at h
      exact absurd (List.cons.inj h).1.symm hd
  | cons c text ih =>
    cases text' with
    | nil =>
      obtain ⟨d, rest, hwritten, hd⟩ := escaped_head c
      rw [List.flatMap_cons, hwritten] at h
      exact absurd (List.cons.inj h).1 hd
    | cons c' text' =>
      rw [List.flatMap_cons, List.flatMap_cons, List.append_assoc, List.append_assoc] at h
      obtain ⟨rfl, hrest⟩ := escaped_append_inj h
      obtain ⟨rfl, hend⟩ := ih hrest
      exact ⟨rfl, hend⟩

theorem quoted_append (text more : List Char) :
    quoted text ++ more = '"' :: (text.flatMap escaped ++ '"' :: more) := by
  simp [quoted]

/-- A quoted text shows what it holds and where it ends. -/
theorem quoted_append_inj {text text' s t : List Char}
    (h : quoted text ++ s = quoted text' ++ t) : text = text' ∧ s = t := by
  rw [quoted_append, quoted_append] at h
  exact escapes_append_inj (List.cons.inj h).2

end Text

namespace Node

/-! ## Atoms -/

/-- Where a bare text ends. -/
def Breaks (c : Char) : Prop :=
  c = '(' ∨ c = ')' ∨ Text.isBlank c = true

/-- The text is not empty, and it breaks somewhere if it begins with a quote. -/
structure Telling (text : List Char) : Prop where
  ne_nil : text ≠ []
  breaks : text.head? = some '"' → ∃ c ∈ text, Breaks c

/-- The text goes on with a blank or a closing bracket, or not at all. -/
def Ended (more : List Char) : Prop :=
  ∀ c ∈ more.head?, c = ' ' ∨ c = ')'

section

variable {text text' s t : List Char}

theorem Ended.breaks (h : Ended s) : ∀ c ∈ s.head?, Breaks c := by
  intro c hc
  rcases h c hc with rfl | rfl
  · exact .inr (.inr (by decide))
  · exact .inr (.inl rfl)

theorem needsQuotes_eq_false_iff : needsQuotes text = false ↔ ∀ c ∈ text, ¬ Breaks c := by
  simp [needsQuotes, Breaks, and_assoc]

theorem atom_of_bare (h : needsQuotes text = false) : atom text = text :=
  if_neg (Bool.eq_false_iff.1 h)

theorem atom_of_quoted (h : needsQuotes text = true) : atom text = Text.quoted text :=
  if_pos h

/-- A bare text does not begin as a quoted one does. -/
theorem Telling.head_ne (h : Telling text) (hbare : needsQuotes text = false) :
    ∃ c rest, text = c :: rest ∧ c ≠ '"' := by
  obtain ⟨c, rest, rfl⟩ := List.exists_cons_of_ne_nil h.ne_nil
  refine ⟨c, rest, rfl, ?_⟩
  rintro rfl
  obtain ⟨d, hd, hbreaks⟩ := h.breaks rfl
  exact needsQuotes_eq_false_iff.1 hbare d hd hbreaks

/-- An atom shows its text and where it ends. -/
theorem atom_append_inj (htext : Telling text) (htext' : Telling text') (hs : Ended s)
    (ht : Ended t) (h : atom text ++ s = atom text' ++ t) : text = text' ∧ s = t := by
  by_cases hneeds : needsQuotes text = true <;> by_cases hneeds' : needsQuotes text' = true
  · rw [atom_of_quoted hneeds, atom_of_quoted hneeds'] at h
    exact Text.quoted_append_inj h
  · rw [Bool.not_eq_true] at hneeds'
    obtain ⟨c, rest, rfl, hc⟩ := htext'.head_ne hneeds'
    rw [atom_of_quoted hneeds, atom_of_bare hneeds'] at h
    exact absurd (List.cons.inj h).1.symm hc
  · rw [Bool.not_eq_true] at hneeds
    obtain ⟨c, rest, rfl, hc⟩ := htext.head_ne hneeds
    rw [atom_of_bare hneeds, atom_of_quoted hneeds'] at h
    exact absurd (List.cons.inj h).1 hc
  · rw [Bool.not_eq_true] at hneeds hneeds'
    rw [atom_of_bare hneeds, atom_of_bare hneeds'] at h
    exact Text.append_inj_of_stop (needsQuotes_eq_false_iff.1 hneeds)
      (needsQuotes_eq_false_iff.1 hneeds') hs.breaks ht.breaks h

/-- No atom begins with a bracket. -/
theorem atom_head (h : Telling text) : ∃ c rest, atom text = c :: rest ∧ c ≠ '(' := by
  by_cases hneeds : needsQuotes text = true
  · exact ⟨'"', _, atom_of_quoted hneeds, by decide⟩
  · rw [Bool.not_eq_true] at hneeds
    obtain ⟨c, rest, rfl⟩ := List.exists_cons_of_ne_nil h.ne_nil
    refine ⟨c, rest, atom_of_bare hneeds, ?_⟩
    rintro rfl
    exact needsQuotes_eq_false_iff.1 hneeds '(' List.mem_cons_self (.inl rfl)

end

/-! ## Trees -/

/-- All texts of the tree show what they are when they stand in an s-expression. -/
inductive Legible : Node → Prop
  | mk {kind literal position children} (htext : Telling literal.toList)
    (h : ∀ child ∈ children, Legible child) : Legible ⟨kind, literal, position, children⟩

/-- The trees have the same shape, and the same text at each place. -/
inductive SameTexts : Node → Node → Prop
  | mk {kind kind' literal position position' children children'}
    (h : List.Forall₂ SameTexts children children') :
    SameTexts ⟨kind, literal, position, children⟩ ⟨kind', literal, position', children'⟩

theorem ended_renderMore (nodes : List Node) (s : List Char) :
    Ended (renderMore nodes ++ ')' :: s) := by
  cases nodes with
  | nil =>
    intro c hc
    cases hc
    exact .inr rfl
  | cons node rest =>
    intro c hc
    cases hc
    exact .inl rfl

theorem render_leaf (kind : Kind) (literal : String) (position : Position) :
    render ⟨kind, literal, position, []⟩ = atom literal.toList := by
  rw [render]

/-- A node with children is written as a list of its text and the children. -/
theorem render_append {kind : Kind} {literal : String} {position : Position} {children : List Node}
    (h : children ≠ []) (s : List Char) : render ⟨kind, literal, position, children⟩ ++ s =
      '(' :: (atom literal.toList ++ (renderMore children ++ ')' :: s)) := by
  obtain ⟨child, rest, rfl⟩ := List.exists_cons_of_ne_nil h
  rw [render, renderMore]
  simp

mutual

/-- What is written for a tree shows the tree and where it ends. -/
theorem render_append_inj : ∀ {a b : Node} {s t : List Char}, a.Legible → b.Legible → Ended s →
    Ended t → a.render ++ s = b.render ++ t → a.SameTexts b ∧ s = t
  | ⟨kind, literal, position, []⟩, ⟨kind', literal', position', []⟩, s, t, .mk htext _,
      .mk htext' _, hs, ht, h => by
    rw [render_leaf, render_leaf] at h
    obtain ⟨heq, hrest⟩ := atom_append_inj htext htext' hs ht h
    obtain rfl := String.toList_inj.1 heq
    exact ⟨.mk .nil, hrest⟩
  | ⟨kind, literal, position, []⟩, ⟨kind', literal', position', child :: rest⟩, s, t, .mk htext _,
      _, _, _, h => by
    obtain ⟨c, more, hatom, hc⟩ := atom_head htext
    rw [render_leaf, render_append (List.cons_ne_nil _ _), hatom] at h
    exact absurd (List.cons.inj h).1 hc
  | ⟨kind, literal, position, child :: rest⟩, ⟨kind', literal', position', []⟩, s, t, _,
      .mk htext' _, _, _, h => by
    obtain ⟨c, more, hatom, hc⟩ := atom_head htext'
    rw [render_leaf, render_append (List.cons_ne_nil _ _), hatom] at h
    exact absurd (List.cons.inj h).1.symm hc
  | ⟨kind, literal, position, child :: rest⟩, ⟨kind', literal', position', child' :: rest'⟩, s, t,
      .mk htext hchildren, .mk htext' hchildren', hs, ht, h => by
    rw [render_append (List.cons_ne_nil _ _), render_append (List.cons_ne_nil _ _)] at h
    obtain ⟨heq, hmore⟩ := atom_append_inj htext htext' (ended_renderMore _ s)
      (ended_renderMore _ t) (List.cons.inj h).2
    obtain rfl := String.toList_inj.1 heq
    obtain ⟨hsame, hrest⟩ := renderMore_append_inj hchildren hchildren' hmore
    exact ⟨.mk hsame, hrest⟩

/-- What is written for the children of a node shows them, up to the bracket that closes them. -/
theorem renderMore_append_inj : ∀ {nodes nodes' : List Node} {s t : List Char},
    (∀ node ∈ nodes, node.Legible) → (∀ node ∈ nodes', node.Legible) →
    renderMore nodes ++ ')' :: s = renderMore nodes' ++ ')' :: t →
    List.Forall₂ SameTexts nodes nodes' ∧ s = t
  | [], [], s, t, _, _, h => ⟨.nil, (List.cons.inj h).2⟩
  | [], node :: rest, s, t, _, _, h => by
    rw [renderMore] at h
    exact absurd (List.cons.inj h).1 (by decide)
  | node :: rest, [], s, t, _, _, h => by
    rw [renderMore] at h
    exact absurd (List.cons.inj h).1 (by decide)
  | node :: rest, node' :: rest', s, t, hnodes, hnodes', h => by
    obtain ⟨hnode, hrest⟩ := List.forall_mem_cons.1 hnodes
    obtain ⟨hnode', hrest'⟩ := List.forall_mem_cons.1 hnodes'
    have hcut : node.render ++ (renderMore rest ++ ')' :: s) =
        node'.render ++ (renderMore rest' ++ ')' :: t) := by
      simpa [renderMore] using h
    obtain ⟨hsame, hmore⟩ := render_append_inj hnode hnode' (ended_renderMore rest s)
      (ended_renderMore rest' t) hcut
    obtain ⟨hsames, hend⟩ := renderMore_append_inj hrest hrest' hmore
    exact ⟨.cons hsame hsames, hend⟩

end

mutual

/-- Nothing but the shape and the texts of a tree is written. -/
theorem render_of_sameTexts : ∀ {a b : Node}, a.SameTexts b → a.render = b.render
  | ⟨kind, literal, position, []⟩, _, .mk .nil => by rw [render_leaf, render_leaf]
  | ⟨kind, literal, position, child :: rest⟩, _, .mk (.cons h hrest) => by
    rw [render, render, render_of_sameTexts h, renderMore_of_sameTexts hrest]

theorem renderMore_of_sameTexts : ∀ {nodes nodes' : List Node},
    List.Forall₂ SameTexts nodes nodes' → renderMore nodes = renderMore nodes'
  | [], _, .nil => rfl
  | node :: rest, _, .cons h hrest => by
    rw [renderMore, renderMore, render_of_sameTexts h, renderMore_of_sameTexts hrest]

end

/-- The s-expression of a tree of legible texts shows the shape of the tree and the text of each
node, and nothing else. -/
theorem sexpr_eq_iff {a b : Node} (ha : a.Legible) (hb : b.Legible) :
    a.sexpr = b.sexpr ↔ a.SameTexts b := by
  have hend : Ended [] := nofun
  refine ⟨fun h => ?_, fun h => congrArg String.ofList (render_of_sameTexts h)⟩
  have hrender : a.render ++ [] = b.render ++ [] := congrArg (· ++ []) (String.ofList_injective h)
  exact (render_append_inj ha hb hend hend hrender).1

/-- Trees of different kinds and places with texts that need every sort of escape. -/
theorem sexpr_eq_iff_escapes : ∃ a b : Node, a.Legible ∧ b.Legible ∧ a ≠ b ∧
    a.sexpr = "(\"\\\"b\\\\c d\\n\" \"(\\u\x7b200b\x7d\" x'\")" ∧ a.sexpr = b.sexpr ∧
    a.SameTexts b := by
  have hlegible : ∀ (root first second : Kind) (place : Position),
      Legible ⟨root, "\"b\\c d\n", place, [⟨first, "(\u200b", place, []⟩,
        ⟨second, "x'\"", place, []⟩]⟩ := by
    intro root first second place
    have hblank : ∃ c ∈ "\"b\\c d\n".toList, Breaks c :=
      ⟨' ', by decide, .inr (.inr (by decide))⟩
    exact .mk ⟨by decide, fun _ => hblank⟩ (List.forall_mem_cons.2 ⟨.mk ⟨by decide, nofun⟩ nofun,
      List.forall_mem_singleton.2 (.mk ⟨by decide, nofun⟩ nofun)⟩)
  have ha := hlegible .string .plus .identifier ⟨1, 1⟩
  have hb := hlegible .plus .string .int ⟨2, 3⟩
  exact ⟨_, _, ha, hb, nofun, by decide +kernel, rfl, (sexpr_eq_iff ha hb).1 rfl⟩

/-- A bare text that begins with a quote passes for a part of a quoted one. -/
example (place : Position) :
    sexpr ⟨.plus, "+", place, [⟨.string, "\"a", place, []⟩, ⟨.string, "b\"", place, []⟩]⟩ =
      sexpr ⟨.plus, "+", place, [⟨.string, "a b", place, []⟩]⟩ := by
  rfl

end Node

end Scripting

import Scripting.Proofs.Acceptance
import Scripting.Proofs.Coverage

/-!
# Proofs: what parsed sources are never refused for

The analysis and the compiler ask for children that trees of the grammar have. So a source is
refused for its text, its names, its numbers and the places of its constructs, but never for a node
that lacks something.
-/

namespace Scripting

namespace Node

variable {T : Token → Prop} {root node below : Node} {path : Path} {index : Nat}

/-! ## Trees of the grammar -/

/-- A child of a function is one of its lists or its body. -/
theorem Built.of_function {literal : String} {position : Position} {children : List Node}
    (h : Built T ⟨.funcWord, literal, position, children⟩) (hc : children[index]? = some below) :
    (index ≤ 1 ∧ ∀ item ∈ below.children, item.Built T) ∨ index = 2 ∧ below.Built T := by
  cases h with
  | function _ _ hparameters hchannels hbody =>
    match index, hc with
    | 0, hc =>
      cases hc
      exact Or.inl ⟨Nat.zero_le 1, hparameters⟩
    | 1, hc =>
      cases hc
      exact Or.inl ⟨Nat.le_refl 1, hchannels⟩
    | 2, hc =>
      cases hc
      exact Or.inr ⟨rfl, hbody⟩
  | leaf _ hkind | pair _ hkind => exact absurd hkind (by decide)
  | sign _ hkind => exact absurd hkind (by decide)

/-- The children of other nodes are trees of the grammar. -/
theorem Built.of_mem (h : node.Built T) (hkind : node.kind ≠ .funcWord)
    (hc : below ∈ node.children) : below.Built T := by
  have hname : ∀ {name : String} {place : Position}, T ⟨.identifier, name, place⟩ →
      Built T ⟨.identifier, name, place, []⟩ := fun hname => .leaf hname (by simp)
  cases h with
  | leaf | unit | bareReturn => exact absurd hc List.not_mem_nil
  | sign _ _ h | valueReturn _ h => exact List.mem_singleton.1 hc ▸ h
  | pair _ _ hleft hright =>
    exact List.forall_mem_cons.2 ⟨hleft, List.forall_mem_singleton.2 hright⟩ below hc
  | field _ hfield hobject =>
    exact List.forall_mem_cons.2 ⟨hobject, List.forall_mem_singleton.2 (hname hfield)⟩ below hc
  | loop _ _ hcondition hblock =>
    exact List.forall_mem_cons.2 ⟨hcondition, List.forall_mem_singleton.2 hblock⟩ below hc
  | method hmethod h =>
    obtain ⟨hobject, harguments⟩ := List.forall_mem_cons.1 h
    exact List.forall_mem_cons.2
      ⟨hobject, List.forall_mem_cons.2 ⟨hname hmethod, harguments⟩⟩ below hc
  | list _ _ h | conditional _ _ h | declaration _ h | application _ h | statements h =>
    exact h below hc
  | function => exact absurd rfl hkind

theorem Built.child (h : node.Built T) (hstep : node.kind.BodyChild index)
    (hc : node.children[index]? = some below) : below.Built T := by
  by_cases hkind : node.kind = .funcWord
  · obtain ⟨kind, literal, position, children⟩ := node
    cases hkind
    cases hstep rfl
    exact (h.of_function hc).elim (fun hlist => absurd hlist.1 (by decide)) (·.2)
  · exact h.of_mem hkind (List.mem_of_getElem? hc)

theorem Built.of_reaches (h : root.Built T) (hreaches : root.Reaches Kind.BodyChild path node) :
    node.Built T := by
  induction hreaches with
  | root => exact h
  | child _ hstep hc ih => exact ih.child hstep hc

/-- A node of the grammar has the children that are asked for. -/
theorem Built.fits (h : node.Built T) : node.kind.Fits node.children.length := by
  cases h with
  | leaf _ hkind =>
    simp only [List.mem_cons, List.not_mem_nil, or_false] at hkind
    rcases hkind with rfl | rfl | rfl | rfl | rfl | rfl | rfl | rfl | rfl <;> trivial
  | sign _ hkind =>
    rcases hkind with rfl | rfl
    · exact rfl
    · exact Or.inl rfl
  | @pair kind _ _ _ _ _ hkind =>
    cases kind with
    | minus => exact Or.inr rfl
    | assign | default | accumulate => exact Nat.le_refl 2
    | leftBracket => exact Nat.le_succ 1
    | and | or | plus | times | divide | modulo | equal | notEqual | less | lessEqual | greater
    | greaterEqual => rfl
    | _ => exact absurd hkind (by decide)
  | unit | list | bareReturn | valueReturn | declaration | statements => trivial
  | field | conditional | loop | function | application | method => exact Nat.le_add_left _ _

theorem Built.not_unfit (h : node.Built T) : ¬ node.Unfit :=
  fun ⟨_, _, hreaches, hfits⟩ => hfits (h.of_reaches hreaches).fits

/-- Every node of a tree of the grammar is the root of one, but for the lists of functions. -/
theorem Built.at? (h : root.Built T) : ∀ {path : Path} {node : Node}, root.at? path = some node →
    node.Built T ∨ ∃ index outer function, path = index :: outer ∧ index ≤ 1 ∧
      root.at? outer = some function ∧ function.kind = .funcWord ∧
      ∀ item ∈ node.children, item.Built T
  | [], node, hat => by
    cases hat
    exact Or.inl h
  | index :: path, node, hat => by
    obtain ⟨parent, hparent, hc⟩ := Option.bind_eq_some_iff.1 hat
    obtain hbuilt | ⟨_, _, _, -, -, -, -, hitems⟩ := h.at? hparent
    · by_cases hkind : parent.kind = .funcWord
      · obtain ⟨kind, literal, position, children⟩ := parent
        cases hkind
        obtain ⟨hindex, hitems⟩ | ⟨-, hbody⟩ := hbuilt.of_function hc
        · exact Or.inr ⟨index, path, _, rfl, hindex, hparent, rfl, hitems⟩
        · exact Or.inl hbody
      · exact Or.inl (hbuilt.of_mem hkind (List.mem_of_getElem? hc))
    · exact Or.inl (hitems node (List.mem_of_getElem? hc))

end Node

/-! ## Sources -/

namespace Session

variable {source : String} {fuel : Nat} {display : Display} {a b : Session} {e : Error}

/-- A run that fails was refused or failed in evaluation. -/
theorem translated_of_run (h : run fuel display source a = .error (.error e) b) :
    (∃ r, e = .runtime r) ∨ translated source = .error (.error e) := by
  obtain ⟨stop, b', hprepare, hrun⟩ | ⟨code, b', hprepare, hrun⟩ := run_cases fuel display source a
  · cases h.symm.trans hrun
    exact Or.inr (translated_of_prepare hprepare)
  · cases heval : code.run fuel .global b'.state with
    | ok values s =>
      rw [heval] at hrun
      cases h.symm.trans hrun
    | error stop s =>
      rw [heval] at hrun
      cases stop with
      | outOfFuel => cases h.symm.trans hrun
      | error r =>
        cases h.symm.trans hrun
        exact Or.inl ⟨r, rfl⟩

theorem refuses_of_run (h : run fuel display source a = .error (.error e) b) :
    (∃ r, e = .runtime r) ∨ Refuses source e :=
  (translated_of_run h).imp_right refuses_of_translated

theorem Parses.block {root : Node} (h : Parses source root) : root.Block fun _ => True := by
  obtain ⟨tokens, -, hparse⟩ := h
  exact Node.block_of_ofTokens hparse ⟨fun _ _ => trivial, trivial⟩

/-- No source is refused for a node that lacks something. -/
theorem Refuses.not_lacking (h : Refuses source e) :
    (∀ e', e = .compile e' →
      e'.fault ≠ .missingAnalysis ∧ ∀ kind, e'.fault ≠ .malformed kind) ∧
    ∀ e', e = .analysis e' → ¬ e'.fault.LacksChild := by
  cases h with
  | scan | parse => exact ⟨nofun, nofun⟩
  | analysis hparses herror =>
    refine ⟨nofun, ?_⟩
    rintro e' ⟨⟩ hlacks
    obtain herror | ⟨s, -, herror⟩ := bind_eq_error_iff.1 herror
    · exact hparses.block.2.not_unfit (Node.unfit_of_survey _ herror hlacks)
    · cases herror
  | compile hparses hp herror =>
    refine ⟨?_, nofun⟩
    rintro e' ⟨⟩
    refine ⟨(Program.fault_of_compile hp herror).1, fun kind hfault => ?_⟩
    rw [Program.compile_eq hp] at herror
    obtain ⟨rel, below, hreaches, htrue⟩ := Node.trueOf_of_compile _ herror
    obtain ⟨rfl, hfits⟩ := htrue.malformed kind hfault
    exact hparses.block.2.not_unfit
      ⟨rel, below, hreaches.mono fun _ _ h => h.surveysChild.bodyChild, hfits⟩

end Session

/-- Whatever tokens the parser is given, the tree that it makes is a block of the grammar, and each
node is built by the grammar or is one of the two lists of a function. So no source that is run is
refused because a node has too few children or too many, or a function no analysis. -/
theorem parsed_trees_built :
    (∀ tokens root, Node.ofTokens tokens = .ok root →
      root.Block (fun _ => True) ∧ ∀ path node, root.at? path = some node →
        node.Built (fun _ => True) ∨ ∃ index outer function, path = index :: outer ∧ index ≤ 1 ∧
          root.at? outer = some function ∧ function.kind = .funcWord ∧
          ∀ item ∈ node.children, item.Built fun _ => True) ∧
    ∀ fuel display source a e b, Session.run fuel display source a = .error (.error e) b →
      (∀ e', e = .compile e' →
        e'.fault ≠ .missingAnalysis ∧ ∀ kind, e'.fault ≠ .malformed kind) ∧
      ∀ e', e = .analysis e' → ¬ e'.fault.LacksChild := by
  refine ⟨fun tokens root h => ?_, fun fuel display source a e b h => ?_⟩
  · have hblock := Node.block_of_ofTokens h ⟨fun _ _ => trivial, trivial⟩
    exact ⟨hblock, fun path node hat => hblock.2.at? hat⟩
  · obtain ⟨r, rfl⟩ | hrefuses := Session.refuses_of_run h
    · exact ⟨nofun, nofun⟩
    · exact hrefuses.not_lacking

/-- The tokens of `a, ();` are read without an end behind them, and the source is refused for its
break. -/
theorem parsed_trees_built_refused :
    ∃ root b, Node.ofTokens [⟨.identifier, "a", ⟨1, 1⟩⟩, ⟨.comma, ",", ⟨1, 2⟩⟩,
        ⟨.leftParen, "(", ⟨1, 4⟩⟩, ⟨.rightParen, ")", ⟨1, 5⟩⟩, ⟨.semicolon, ";", ⟨1, 6⟩⟩] =
          .ok root ∧ root.Block (fun _ => True) ∧
      Session.run 0 .plain "break" (.start 0) =
        .error (.error (.compile ⟨.outsideLoop .breakWord, ⟨1, 1⟩⟩)) b ∧
      CompileFault.outsideLoop .breakWord ≠ .missingAnalysis := by
  obtain ⟨htrees, hruns⟩ := parsed_trees_built
  obtain ⟨root, hroot⟩ : ∃ root, Node.ofTokens [⟨.identifier, "a", ⟨1, 1⟩⟩, ⟨.comma, ",", ⟨1, 2⟩⟩,
      ⟨.leftParen, "(", ⟨1, 4⟩⟩, ⟨.rightParen, ")", ⟨1, 5⟩⟩, ⟨.semicolon, ";", ⟨1, 6⟩⟩] =
        .ok root :=
    ⟨_, rfl⟩
  obtain ⟨b, hrun⟩ : ∃ b, Session.run 0 .plain "break" (.start 0) =
      .error (.error (.compile ⟨.outsideLoop .breakWord, ⟨1, 1⟩⟩)) b := ⟨_, rfl⟩
  exact ⟨root, b, hroot, (htrees _ root hroot).1, hrun, ((hruns _ _ _ _ _ _ hrun).1 _ rfl).1⟩

end Scripting

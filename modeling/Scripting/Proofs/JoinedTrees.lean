import Scripting.Proofs.AlikeReaders

/-!
# Proofs: the trees of joined sources

A statement of a source ends with a semicolon that the source holds itself, or that its last line
end or its end stands for. So no statement goes on behind a line end, and the statements of two
sources, the second on a new line behind the first, are those of the first and then those of the
second.
-/

namespace Scripting

namespace Node

open ParseM

variable {more : Stream} {expr expr' : Nat → ParseM Node} {s s' t : Stream}

theorem skipSemicolons_bind {α : Type} (f : Unit → ParseM α) (s : Stream) :
    (skipSemicolons >>= f) s = f () s.skipped := rfl

/-- The semicolons in front of statements do not matter. -/
theorem statements_congr (expr : Nat → ParseM Node) (closer : Option Kind) (fuel : Nat)
    (h : s.skipped = t.skipped) :
    statements expr closer fuel s = statements expr closer fuel t := by
  cases fuel with
  | zero => rfl
  | succ fuel => rw [statements, skipSemicolons_bind, skipSemicolons_bind, h]

theorem ok_of_expect {kind : Kind} {expectation : Expectation} {token : Token}
    (h : expect kind expectation s = .ok (token, t)) : s.startsWith kind = true ∧ t = s.tail := by
  obtain ⟨_, _, hget, h⟩ := ParseM.ok_of_bind h
  cases hget
  split at h
  · next hkind =>
    cases h
    exact ⟨hkind, rfl⟩
  · cases h

theorem rest_ne_nil_of_startsWith {kind : Kind} (h : s.startsWith kind = true) : s.rest ≠ [] := by
  intro hs
  rw [Stream.startsWith, hs] at h
  cases h

/-- What statements up to the end of the input come to: none, or one that a semicolon ends and then
the others. -/
theorem ok_of_statements {fuel : Nat} {children : List Node}
    (h : statements expr none (fuel + 1) s = .ok (children, t)) :
    (s.skipped.rest = [] ∧ children = []) ∨
      ∃ first others u, s.skipped.rest ≠ [] ∧ expr 0 s.skipped = .ok (first, u) ∧
        u.startsWith .semicolon = true ∧ statements expr none fuel u.tail = .ok (others, t) ∧
        children = first :: others := by
  rw [statements, skipSemicolons_bind] at h
  obtain ⟨_, _, hget, h⟩ := ParseM.ok_of_bind h
  cases hget
  split at h
  · next hempty =>
    cases h
    exact Or.inl ⟨List.isEmpty_iff.1 hempty, rfl⟩
  · next hempty =>
    obtain ⟨first, u, hfirst, h⟩ := ParseM.ok_of_bind h
    obtain ⟨_, _, hget, h⟩ := ParseM.ok_of_bind h
    cases hget
    obtain ⟨_, _, hsemicolon, h⟩ := ParseM.ok_of_bind h
    obtain ⟨token, v, hexpect, hv⟩ := ParseM.ok_of_bind
      (show (expect .semicolon .separator >>= fun _ => pure PUnit.unit) u = _ from hsemicolon)
    cases hv
    obtain ⟨hu, rfl⟩ := ok_of_expect hexpect
    obtain ⟨others, _, hothers, h⟩ := ParseM.ok_of_bind h
    cases h
    refine Or.inr ⟨first, others, u, fun hnil => hempty ?_, hfirst, hu, hothers, rfl⟩
    exact List.isEmpty_iff.2 hnil

/-- A statement that a semicolon ends, and then others. -/
theorem statements_cons {fuel : Nat} {first : Node} {others : List Node} {u : Stream}
    (hs : s.skipped.rest ≠ []) (hfirst : expr 0 s.skipped = .ok (first, u))
    (hu : u.startsWith .semicolon = true)
    (hothers : statements expr none fuel u.tail = .ok (others, t)) :
    statements expr none (fuel + 1) s = .ok (first :: others, t) := by
  have hexpect : expect .semicolon .separator u = .ok (u.head, u.tail) := by
    show (if u.startsWith .semicolon then _ else _ : ParseM Token) u = _
    rw [if_pos hu]
    rfl
  rw [statements, skipSemicolons_bind]
  show (if s.skipped.rest.isEmpty then _ else _ : ParseM (List Node)) s.skipped = _
  split
  · next hempty => exact absurd (List.isEmpty_iff.1 hempty) hs
  · refine bind_eq_ok_iff.2 ⟨(first, u), hfirst, ?_⟩
    refine bind_eq_ok_iff.2 ⟨((), u.tail), bind_eq_ok_iff.2 ⟨_, hexpect, rfl⟩, ?_⟩
    exact bind_eq_ok_iff.2 ⟨(others, t), hothers, rfl⟩

/-- The statements of a stream, and then those that are read behind it. -/
theorem statements_join (hexpr : ∀ power, Reads more erased (expr power) (expr' power))
    {fuel₂ : Nat} {children₂ : List Node}
    (h₂ : ∀ fuel' ≥ fuel₂, ∃ nodes t, statements expr' none fuel' more = .ok (nodes, t) ∧
      nodes.map erased = children₂.map erased) : ∀ {fuel fuel' : Nat} {s s' s₁ : Stream}
    {children : List Node}, fuel₂ + s.rest.length ≤ fuel' → s.Alike more s' →
      statements expr none fuel s = .ok (children, s₁) →
        ∃ nodes t, statements expr' none fuel' s' = .ok (nodes, t) ∧
          nodes.map erased = (children ++ children₂).map erased := by
  intro fuel
  induction fuel with
  | zero => exact fun _ _ h => nomatch h
  | succ fuel ih =>
    intro fuel' s s' s₁ children hfuel hs h
    obtain ⟨hnone, rfl⟩ | ⟨first, others, u, hsome, hfirst, hu, hothers, rfl⟩ := ok_of_statements h
    · -- Only semicolons are left, and the rest is read from there.
      rw [statements_congr expr' none fuel' (hs.skipped_eq hnone)]
      exact h₂ fuel' (Nat.le_trans (Nat.le_add_right _ _) hfuel)
    · have hopen : s.skipped.Open more := Or.inl hsome
      have hopen' : u.Open more := Or.inl (rest_ne_nil_of_startsWith hu)
      have hs' := hs.skipped hopen
      obtain ⟨first', u', hfirst', hu', heq⟩ := (hexpr 0).alike hs' hfirst hopen'
      have hsome' : s'.skipped.rest ≠ [] := by
        intro hnil
        have hempty := hs'.isEmpty hopen
        rw [hnil] at hempty
        exact hsome (List.isEmpty_iff.1 hempty)
      -- The semicolon is a token less.
      have htail : u.tail.rest.length + 1 ≤ s.rest.length := by
        have htokens : 0 < u.rest.length := List.length_pos_of_ne_nil (rest_ne_nil_of_startsWith hu)
        have hexpression := (hexpr 0).shrinks hfirst
        have hskipped : s.skipped.rest.length ≤ s.rest.length :=
          (List.dropWhile_sublist _).length_le
        have hlength : u.tail.rest.length = u.rest.length - 1 := List.length_tail
        omega
      obtain ⟨fuel', rfl⟩ : ∃ n, fuel' = n + 1 := ⟨fuel' - 1, by omega⟩
      obtain ⟨nodes, t, hnodes, hmap⟩ :=
        ih (show fuel₂ + u.tail.rest.length ≤ fuel' by omega) (hu'.tail hopen') hothers
      refine ⟨first' :: nodes, t, ?_, map_erased_cons heq.symm hmap⟩
      exact statements_cons hsome' hfirst' (hu'.startsWith hopen' _ ▸ hu) hnodes

end Node

namespace Stream

theorem ofTokens_eq {front : List Token} {t : Token} (hfront : ∀ t ∈ front, t.kind ≠ .finish)
    (ht : t.kind = .finish) : ofTokens (front ++ [t]) = ⟨front, t⟩ := by
  have hrest : (front ++ [t]).takeWhile (·.kind ≠ .finish) = front := by
    rw [List.takeWhile_append_of_pos fun t ht => decide_eq_true (hfront t ht)]
    simp [ht]
  have hnone : front.find? (·.kind = .finish) = none :=
    List.find?_eq_none.2 fun t ht h => hfront t ht (of_decide_eq_true h)
  have hfinish : (front ++ [t]).find? (·.kind = .finish) = some t := by
    rw [List.find?_append, hnone]
    simp [ht]
  unfold ofTokens
  rw [hrest, hfinish]
  rfl

end Stream

namespace Node

/-- The tree of tokens that two rows have given one after the other. -/
theorem ofTokens_join {front front' added : List Token} {t t' last : Token} {root root' : Node}
    (hfront : ∀ u ∈ front, u.kind ≠ .finish) (hfront' : ∀ u ∈ front', u.kind ≠ .finish)
    (ht : t.erased = t'.erased) (ht' : t'.kind = .finish)
    (hadded : added.map Token.erased = front'.map Token.erased) (hlast : last.erased = t'.erased)
    (h : ofTokens (front ++ [t]) = .ok root) (h' : ofTokens (front' ++ [t']) = .ok root') :
    ∃ place place' joined children children' nodes,
      root = ⟨.statements, Kind.statements.name, place, children⟩ ∧
      root' = ⟨.statements, Kind.statements.name, place', children'⟩ ∧
      ofTokens (front ++ added ++ [last]) =
        .ok ⟨.statements, Kind.statements.name, joined, nodes⟩ ∧
      nodes.map erased = (children ++ children').map erased := by
  have hkinds : ∀ u ∈ added, u.kind ≠ .finish := by
    intro u hu
    obtain ⟨u', hu', heq⟩ := List.mem_map.1 (hadded ▸ List.mem_map_of_mem hu)
    exact Stream.kind_of_erased heq ▸ hfront' u' hu'
  have hlast_kind : last.kind = .finish := (Stream.kind_of_erased hlast).trans ht'
  have ht_kind : t.kind = .finish := (Stream.kind_of_erased ht).trans ht'
  have hlength : added.length = front'.length := by simpa using congrArg List.length hadded
  obtain ⟨children, s, rfl, hchildren⟩ := statements_of_ofTokens h
  obtain ⟨children', s', rfl, hchildren'⟩ := statements_of_ofTokens h'
  rw [Stream.ofTokens_eq hfront ht_kind] at hchildren
  rw [Stream.ofTokens_eq hfront' ht'] at hchildren'
  -- All bounds are at most that of the joined row.
  obtain ⟨bound, hbound⟩ : ∃ bound, bound = (front ++ added ++ [last]).length + 2 := ⟨_, rfl⟩
  have hsizes : (front ++ [t]).length + 2 ≤ bound ∧
      (front' ++ [t']).length + 2 + front.length ≤ bound := by
    simp only [List.length_append, List.length_singleton] at hbound ⊢
    omega
  have hsecond : Stream.Alike ⟨front', t'⟩ ⟨[], last⟩ ⟨added, last⟩ :=
    ⟨⟨added, (List.append_nil _).symm, hadded.symm⟩, rfl, fun _ => hlast.symm⟩
  have hboth : Stream.Alike ⟨front, t⟩ ⟨added, last⟩ ⟨front ++ added, last⟩ :=
    ⟨⟨front, rfl, rfl⟩, rfl, fun _ => ht.trans hlast.symm⟩
  have hmore : ∀ fuel ≥ (front' ++ [t']).length + 2, ∃ nodes u,
      statements (expression bound) none fuel ⟨added, last⟩ = .ok (nodes, u) ∧
        nodes.map erased = children'.map erased := by
    intro fuel hfuel
    obtain ⟨nodes, u, hnodes, -, hmap⟩ := (reads_statements
      (reads_expression (Nat.le_trans (Nat.le_add_right _ _) hsizes.2)) none hfuel).alike hsecond
        hchildren' (Or.inr rfl)
    exact ⟨nodes, u, hnodes, hmap.symm⟩
  obtain ⟨nodes, u, hnodes, hmap⟩ := statements_join (reads_expression hsizes.1) hmore
    hsizes.2 hboth hchildren
  have hprogram : program bound ⟨front ++ added, last⟩ =
      .ok (⟨.statements, Kind.statements.name, Stream.head ⟨front ++ added, last⟩ |>.position,
        nodes⟩, u) :=
    bind_eq_ok_iff.2 ⟨_, hnodes, rfl⟩
  have hjoined : ofTokens (front ++ added ++ [last]) = .ok ⟨.statements, Kind.statements.name,
      Stream.head ⟨front ++ added, last⟩ |>.position, nodes⟩ := by
    rw [ofTokens_eq, ← hbound,
      Stream.ofTokens_eq (List.forall_mem_append.2 ⟨hfront, hkinds⟩) hlast_kind, hprogram]
  exact ⟨_, _, _, children, children', nodes, rfl, rfl, hjoined, hmap⟩

end Node

namespace Session

/-- The statements of a second source on a new line follow those of the first. -/
theorem Parses.join {first second : String} {root root' : Node} (h : Parses first root)
    (h' : Parses second root') : ∃ place place' joined children children' nodes,
      root = ⟨.statements, Kind.statements.name, place, children⟩ ∧
      root' = ⟨.statements, Kind.statements.name, place', children'⟩ ∧
      Parses (first ++ "\n" ++ second) ⟨.statements, Kind.statements.name, joined, nodes⟩ ∧
      nodes.map Node.erased = (children ++ children').map Node.erased := by
  obtain ⟨tokens, hscan, hparse⟩ := h
  obtain ⟨tokens', hscan', hparse'⟩ := h'
  obtain ⟨front, finish, added, hfront, rfl, hjoined, hadded⟩ := Token.scan_join hscan hscan'
  obtain ⟨-, finish', front', -, -, rfl, hfront'⟩ := Token.layout_of_scan hscan'
  -- The tokens that the second source adds are its own, in other places.
  obtain ⟨added', ends, rfl, hadded', hends⟩ := List.map_eq_append_iff.1
    (hadded.trans List.map_append)
  obtain ⟨last, rest, rfl, hlast, hrest⟩ := List.map_eq_cons_iff.1 hends
  cases List.map_eq_nil_iff.1 hrest
  obtain ⟨place, place', joined, children, children', nodes, hroot, hroot', hnodes, hmap⟩ :=
    Node.ofTokens_join hfront hfront' (by rfl) (by rfl) hadded' hlast hparse hparse'
  rw [← List.append_assoc] at hjoined
  exact ⟨place, place', joined, children, children', nodes, hroot, hroot', ⟨_, hjoined, hnodes⟩,
    hmap⟩

end Session

end Scripting

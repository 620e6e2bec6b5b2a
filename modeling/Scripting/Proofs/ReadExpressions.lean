import Scripting.Proofs.JoinedTrees
import Scripting.Proofs.WrittenExpressions

/-!
# Proofs: written expressions are read as they were

The parser reads an expression at some power: a first operand, and then operators that bind more
strongly. So what is written for a tree is read as the tree wherever the tree fits: where the power
is below those of its operators, and what comes behind it binds no more strongly than they do.
`Opens` says this of a row of tokens and a tree. It has one rule for each way to put a tree
together, and brackets make every tree fit.
-/

namespace Scripting

namespace Node

/-! ## Reading -/

open ParseM

/-- How strongly the next token of a stream binds. -/
def ahead (s : Stream) : Nat :=
  s.head.kind.bindingPower

/-- Where the tokens come first, an expression read at the power begins with the node, and goes on
with what is behind the tokens if that binds no more strongly than `after`. -/
def Opens (power after : Nat) (tokens : List Token) (node : Node) : Prop :=
  ∀ ⦃fuel rest finish⦄, tokens.length < fuel → ahead ⟨rest, finish⟩ ≤ after →
    ∃ bound, fuel ≤ bound + tokens.length ∧
      expression (fuel + 1) power ⟨tokens ++ rest, finish⟩ =
        operators (expression fuel) fuel power bound node ⟨rest, finish⟩

section

variable {expr : Nat → ParseM Node} {fuel depth power after bound : Nat} {token finish : Token}
  {rest more tokens : List Token} {left node : Node} {s : Stream}

theorem expression_of_start
    (h : start (expression fuel) fuel token ⟨more, finish⟩ = .ok (node, s)) :
    expression (fuel + 1) power ⟨token :: more, finish⟩ =
      operators (expression fuel) fuel power fuel node s :=
  bind_of_ok h

theorem operators_stop (h : ahead s ≤ power) :
    operators expr depth power (bound + 1) node s = .ok (node, s) := by
  show (if power < ahead s then _ else pure node : ParseM Node) s = _
  rw [if_neg (Nat.not_lt.2 h)]
  rfl

theorem operators_extend (h : power < token.kind.bindingPower)
    (hextend : extend expr depth token left ⟨more, finish⟩ = .ok (node, s)) :
    operators expr depth power (bound + 1) left ⟨token :: more, finish⟩ =
      operators expr depth power bound node s := by
  show (if power < token.kind.bindingPower then _ else pure left : ParseM Node)
    ⟨token :: more, finish⟩ = _
  rw [if_pos h]
  exact bind_of_ok hextend

/-- What begins an expression is the whole expression if no operator follows. -/
theorem Opens.reads (h : Opens power after tokens node) (hfuel : tokens.length + 1 < fuel)
    (hafter : ahead ⟨rest, finish⟩ ≤ after) (hpower : ahead ⟨rest, finish⟩ ≤ power) :
    expression fuel power ⟨tokens ++ rest, finish⟩ = .ok (node, ⟨rest, finish⟩) := by
  obtain ⟨fuel, rfl⟩ : ∃ n, fuel = n + 1 := ⟨fuel - 1, by omega⟩
  obtain ⟨bound, hbound, hread⟩ := h (Nat.lt_of_succ_lt_succ hfuel) hafter
  obtain ⟨bound, rfl⟩ : ∃ n, bound = n + 1 := ⟨bound - 1, by omega⟩
  rw [hread, operators_stop hpower]

/-- An expression that begins with what a token starts. -/
theorem opens_of_start
    (h : ∀ ⦃fuel rest finish⦄, tokens.length + 1 < fuel → ahead ⟨rest, finish⟩ ≤ after →
      start (expression fuel) fuel token ⟨tokens ++ rest, finish⟩ = .ok (node, ⟨rest, finish⟩)) :
    Opens power after (token :: tokens) node :=
  fun fuel _ _ hfuel hafter =>
    ⟨fuel, Nat.le_add_right _ _, expression_of_start (h hfuel hafter)⟩

/-- An operator behind what begins an expression. -/
theorem Opens.extend {after' : Nat} (h : Opens power after tokens left) (token : Token)
    (hpower : power < token.kind.bindingPower) (hafter : token.kind.bindingPower ≤ after)
    (hextend : ∀ ⦃fuel rest finish⦄, more.length + 1 < fuel → ahead ⟨rest, finish⟩ ≤ after' →
      Node.extend (expression fuel) fuel token left ⟨more ++ rest, finish⟩ =
        .ok (node, ⟨rest, finish⟩)) :
    Opens power after' (tokens ++ token :: more) node := by
  intro fuel rest finish hfuel hrest
  rw [List.length_append, List.length_cons] at hfuel ⊢
  obtain ⟨bound, hbound, hread⟩ :=
    @h fuel (token :: (more ++ rest)) finish (by omega) hafter
  obtain ⟨bound, rfl⟩ : ∃ n, bound = n + 1 := ⟨bound - 1, by omega⟩
  refine ⟨bound, by omega, ?_⟩
  rw [List.append_assoc, List.cons_append, hread]
  exact operators_extend hpower (hextend (by omega) hrest)

theorem Opens.weaken {after' : Nat} (h : Opens power after tokens node) (hle : after' ≤ after) :
    Opens power after' tokens node :=
  fun _ _ _ hfuel hafter => h hfuel (Nat.le_trans hafter hle)

/-! ## Brackets -/

theorem accept_of_ne {kind : Kind} (h : token.kind ≠ kind) :
    accept kind ⟨token :: rest, finish⟩ = .ok (false, ⟨token :: rest, finish⟩) := by
  have hstarts : Stream.startsWith ⟨token :: rest, finish⟩ kind = false := decide_eq_false h
  rw [accept_eq, hstarts]
  rfl

theorem accept_of_eq {kind : Kind} (h : token.kind = kind) :
    accept kind ⟨token :: rest, finish⟩ = .ok (true, ⟨rest, finish⟩) := by
  have hstarts : Stream.startsWith ⟨token :: rest, finish⟩ kind = true := decide_eq_true h
  rw [accept_eq, if_pos hstarts]
  rfl

theorem discard_expect {α : Type} {kind : Kind} {expectation : Expectation} {f : PUnit → ParseM α}
    (h : token.kind = kind) : (discard (expect kind expectation) >>= f) ⟨token :: rest, finish⟩ =
      f .unit ⟨rest, finish⟩ := by
  have hstarts : Stream.startsWith ⟨token :: rest, finish⟩ kind = true := decide_eq_true h
  have hexpect : expect kind expectation ⟨token :: rest, finish⟩ = .ok (token, ⟨rest, finish⟩) := by
    rw [expect_eq, if_pos hstarts]
    rfl
  have hdiscard : (expect kind expectation >>= fun _ => pure PUnit.unit : ParseM PUnit)
      ⟨token :: rest, finish⟩ = .ok (.unit, ⟨rest, finish⟩) := bind_of_ok hexpect
  exact bind_of_ok hdiscard

/-- What stands in brackets is read by itself, whatever is around them. -/
theorem opens_brackets (h : Opens 0 0 tokens node) (hbegins : Begins tokens) :
    Opens power after (bracketed true tokens) node := by
  refine opens_of_start fun fuel rest finish hfuel _ => ?_
  rw [List.length_append, List.length_singleton] at hfuel
  rw [List.append_assoc, List.singleton_append]
  obtain ⟨token, more, rfl, hkind, -⟩ := hbegins
  have hinner : expression fuel 0 ⟨token :: more ++ symbol .rightParen :: rest, finish⟩ =
      .ok (node, ⟨symbol .rightParen :: rest, finish⟩) :=
    h.reads (by omega) (Nat.le_refl _) (Nat.le_refl _)
  refine (bind_of_ok (accept_of_ne hkind)).trans ?_
  refine (bind_of_ok hinner).trans ?_
  exact discard_expect rfl

/-! ## Lists -/

/-- Items behind the first of a comma list. -/
theorem Opens.list {others : List Node} (h : Opens power Kind.commaPower tokens left)
    (hpower : power < Kind.commaPower) (hne : others ≠ [])
    (hothers : ∀ node ∈ others, Opens Kind.commaPower Kind.commaPower (item node) node.erased) :
    Opens power Kind.commaPower (tokens ++ writtenMore others)
      ⟨.comma, Kind.comma.name, .nowhere, commaItems left ++ others.map erased⟩ := by
  induction others generalizing tokens left with
  | nil => exact absurd rfl hne
  | cons node others ih =>
    obtain ⟨hnode, hothers⟩ := List.forall_mem_cons.1 hothers
    have hnext : Opens power Kind.commaPower (tokens ++ symbol .comma :: item node)
        ⟨.comma, Kind.comma.name, .nowhere, commaItems left ++ [node.erased]⟩ :=
      h.extend (symbol .comma) hpower (Nat.le_refl _)
        fun _ _ _ hfuel hafter => bind_of_ok (hnode.reads hfuel hafter hafter)
    have htokens : tokens ++ writtenMore (node :: others) =
        tokens ++ symbol .comma :: item node ++ writtenMore others := by
      rw [writtenMore_cons, List.append_assoc, List.cons_append]
    rw [htokens]
    cases others with
    | nil => exact (List.append_nil _).symm ▸ hnext
    | cons second others =>
      have hitems : commaItems left ++ (node :: second :: others).map erased =
          commaItems left ++ [node.erased] ++ (second :: others).map erased := by simp
      rw [hitems]
      exact ih hnext (List.cons_ne_nil _ _) hothers

/-- Items up to a closing bracket. -/
theorem items_written {first : Node} {others : List Node}
    (hopens : ∀ node ∈ first :: others,
      Opens Kind.commaPower Kind.commaPower (item node) node.erased)
    (hfuel : (writtenItems (first :: others)).length + 1 < fuel)
    (hbound : (writtenItems (first :: others)).length < bound) :
    items (expression fuel) bound
        ⟨writtenItems (first :: others) ++ symbol .rightParen :: rest, finish⟩ =
      .ok ((first :: others).map erased, ⟨symbol .rightParen :: rest, finish⟩) := by
  induction others generalizing first bound with
  | nil =>
    obtain ⟨hfirst, -⟩ := List.forall_mem_cons.1 hopens
    obtain ⟨bound, rfl⟩ : ∃ n, bound = n + 1 := ⟨bound - 1, by omega⟩
    have hitem : writtenItems [first] = item first := List.append_nil _
    rw [hitem] at hfuel ⊢
    have hread : expression fuel Kind.commaPower ⟨item first ++ symbol .rightParen :: rest, finish⟩ =
        .ok (first.erased, ⟨symbol .rightParen :: rest, finish⟩) :=
      hfirst.reads hfuel (Nat.zero_le _) (Nat.zero_le _)
    have hcloser : accept .comma ⟨symbol .rightParen :: rest, finish⟩ =
        .ok (false, ⟨symbol .rightParen :: rest, finish⟩) := accept_of_ne nofun
    exact (bind_of_ok hread).trans (bind_of_ok hcloser)
  | cons second others ih =>
    obtain ⟨hfirst, hothers⟩ := List.forall_mem_cons.1 hopens
    obtain ⟨bound, rfl⟩ : ∃ n, bound = n + 1 := ⟨bound - 1, by omega⟩
    have hitems : writtenItems (first :: second :: others) =
        item first ++ symbol .comma :: writtenItems (second :: others) := rfl
    rw [hitems, List.length_append, List.length_cons] at hfuel hbound
    rw [hitems, List.append_assoc, List.cons_append]
    have hread : expression fuel Kind.commaPower
        ⟨item first ++ symbol .comma :: (writtenItems (second :: others) ++
          symbol .rightParen :: rest), finish⟩ =
        .ok (first.erased, ⟨symbol .comma :: (writtenItems (second :: others) ++
          symbol .rightParen :: rest), finish⟩) :=
      hfirst.reads (by omega) (Nat.le_refl _) (Nat.le_refl _)
    have hcomma : accept .comma ⟨symbol .comma :: (writtenItems (second :: others) ++
          symbol .rightParen :: rest), finish⟩ =
        .ok (true, ⟨writtenItems (second :: others) ++ symbol .rightParen :: rest, finish⟩) :=
      accept_of_eq rfl
    refine (bind_of_ok hread).trans ((bind_of_ok hcomma).trans ?_)
    exact (bind_of_ok (ih hothers (by omega) (by omega)))

/-- Arguments up to their closing bracket. -/
theorem enclosed_written {arguments : List Node}
    (hopens : ∀ node ∈ arguments, Opens Kind.commaPower Kind.commaPower (item node) node.erased)
    (hbegins : ∀ node ∈ arguments, Begins (written node))
    (hfuel : (writtenItems arguments).length + 1 < fuel) :
    enclosed (expression fuel) .rightParen .argumentsEnd fuel
        ⟨writtenItems arguments ++ symbol .rightParen :: rest, finish⟩ =
      .ok (arguments.map erased, ⟨rest, finish⟩) := by
  cases arguments with
  | nil => rfl
  | cons first others =>
    obtain ⟨hfirst, -⟩ := List.forall_mem_cons.1 hbegins
    obtain ⟨token, more, htokens, hkind, -⟩ :=
      (begins_bracketed hfirst first.looseItem).append (writtenMore others)
    have hstarts : Stream.startsWith
        ⟨writtenItems (first :: others) ++ symbol .rightParen :: rest, finish⟩ .rightParen =
          false := by
      rw [writtenItems_cons, item, htokens]
      exact decide_eq_false hkind
    have hitems : items (expression fuel) fuel
        ⟨writtenItems (first :: others) ++ symbol .rightParen :: rest, finish⟩ =
          .ok ((first :: others).map erased, ⟨symbol .rightParen :: rest, finish⟩) :=
      items_written hopens hfuel (by omega)
    unfold enclosed
    refine (bind_of_ok rfl).trans ?_
    rw [hstarts, if_neg Bool.false_ne_true]
    exact (bind_of_ok hitems).trans (discard_expect rfl)

/-! ## One construct at a time -/

section

variable {kind : Kind} {literal name : String} {right : Node} {ltokens rtokens : List Token}

theorem opens_leaf (h : kind ∈ Kind.values) :
    Opens power after [⟨kind, literal, .nowhere⟩] ⟨kind, literal, .nowhere, []⟩ := by
  refine opens_of_start fun fuel rest finish _ _ => ?_
  unfold Kind.values at h
  fin_cases h <;> rfl

theorem opens_sign (hkind : kind ∈ Kind.signs)
    (h : Opens Kind.signPower Kind.signPower tokens node) :
    Opens power Kind.signPower (⟨kind, literal, .nowhere⟩ :: tokens)
      ⟨kind, literal, .nowhere, [node]⟩ := by
  refine opens_of_start fun fuel rest finish hfuel hafter => ?_
  have hoperand := h.reads hfuel hafter hafter
  unfold Kind.signs at hkind
  fin_cases hkind <;> exact bind_of_ok hoperand

theorem opens_operation (hkind : kind ∈ Kind.operators)
    (hleft : Opens power kind.bindingPower ltokens left)
    (hright : Opens kind.bindingPower kind.bindingPower rtokens right)
    (hpower : power < kind.bindingPower) :
    Opens power kind.bindingPower (ltokens ++ ⟨kind, literal, .nowhere⟩ :: rtokens)
      ⟨kind, literal, .nowhere, [left, right]⟩ := by
  refine hleft.extend _ hpower (Nat.le_refl _) fun fuel rest finish hfuel hafter => ?_
  have hoperand := hright.reads hfuel hafter hafter
  unfold Kind.operators at hkind
  fin_cases hkind <;>
    exact bind_of_ok hoperand

theorem opens_assignment (hkind : kind ∈ Kind.assignments)
    (hleft : Opens power kind.bindingPower ltokens left)
    (hright : Opens (kind.bindingPower - 1) (kind.bindingPower - 1) rtokens right)
    (hpower : power < kind.bindingPower) :
    Opens power (kind.bindingPower - 1) (ltokens ++ ⟨kind, literal, .nowhere⟩ :: rtokens)
      ⟨kind, literal, .nowhere, [left, right]⟩ := by
  refine hleft.extend _ hpower (Nat.le_refl _) fun fuel rest finish hfuel hafter => ?_
  have hoperand := hright.reads hfuel hafter hafter
  unfold Kind.assignments at hkind
  fin_cases hkind <;> exact bind_of_ok hoperand

theorem opens_field (h : Opens power Kind.period.bindingPower tokens left)
    (hpower : power ≤ Kind.signPower) :
    Opens power after (tokens ++ [symbol .period, ⟨.identifier, name, .nowhere⟩])
      ⟨.period, Kind.period.name, .nowhere, [left, ⟨.identifier, name, .nowhere, []⟩]⟩ :=
  h.extend (symbol .period) (Nat.lt_of_le_of_lt hpower (by decide)) (Nat.le_refl _)
    fun fuel rest finish _ _ => rfl

theorem opens_index (h : Opens power Kind.leftBracket.bindingPower tokens left)
    (hpower : power ≤ Kind.signPower) (hright : Opens 0 0 rtokens right) :
    Opens power after (tokens ++ symbol .leftBracket :: (rtokens ++ [symbol .rightBracket]))
      ⟨.leftBracket, Kind.leftBracket.name, .nowhere, [left, right]⟩ := by
  refine h.extend (symbol .leftBracket) (Nat.lt_of_le_of_lt hpower (by decide))
    (Nat.le_refl _) fun fuel rest finish hfuel _ => ?_
  rw [List.length_append] at hfuel
  rw [List.append_assoc, List.singleton_append]
  have hindex : expression fuel 0 ⟨rtokens ++ symbol .rightBracket :: rest, finish⟩ =
      .ok (right, ⟨symbol .rightBracket :: rest, finish⟩) :=
    hright.reads (by omega) (Nat.le_refl _) (Nat.le_refl _)
  exact (bind_of_ok hindex).trans (discard_expect rfl)

theorem opens_applied {arguments : List Node}
    (h : Opens power Kind.leftParen.bindingPower tokens left) (hpower : power ≤ Kind.signPower)
    (hopens : ∀ node ∈ arguments, Opens Kind.commaPower Kind.commaPower (item node) node.erased)
    (hbegins : ∀ node ∈ arguments, Begins (written node)) :
    Opens power after
      (tokens ++ symbol .leftParen :: (writtenItems arguments ++ [symbol .rightParen]))
      (applied (symbol .leftParen) left (arguments.map erased)) := by
  refine h.extend (symbol .leftParen) (Nat.lt_of_le_of_lt hpower (by decide))
    (Nat.le_refl _) fun fuel rest finish hfuel _ => ?_
  rw [List.length_append] at hfuel
  rw [List.append_assoc, List.singleton_append]
  exact bind_of_ok (enclosed_written hopens hbegins (by omega))

end

end

/-! ## Trees -/

mutual

theorem erased_erased : ∀ node : Node, node.erased.erased = node.erased
  | ⟨kind, literal, _, children⟩ =>
    congrArg (Node.mk kind literal .nowhere) (erasedAll_erasedAll children)

theorem erasedAll_erasedAll : ∀ nodes : List Node, erasedAll (erasedAll nodes) = erasedAll nodes
  | [] => rfl
  | node :: rest => congrArg₂ List.cons (erased_erased node) (erasedAll_erasedAll rest)

end

theorem kind_erased (node : Node) : node.erased.kind = node.kind := by
  cases node
  rfl

theorem applied_of_ne (paren : Token) {callee : Node} (h : callee.kind ≠ .period)
    (arguments : List Node) : applied paren callee arguments =
      ⟨.application, Kind.application.name, paren.position, callee :: arguments⟩ := by
  unfold applied
  split
  · exact absurd rfl h
  · rfl

section

variable {t : Node}

/-- Reading what is written for the node gives the node, in all places where it needs no brackets. -/
def Opened (t : Node) : Prop :=
  ∀ ⦃power⦄, power ≤ Kind.signPower → power < t.leftPower →
    Opens power t.rightPower (written t) t.erased

/-- What is written for an operand gives the operand, if it has brackets or needs none. -/
theorem Opened.bracketed {power after : Nat} {needed : Bool} (h : t.Opened) (ht : t.Expression)
    (hpower : power ≤ Kind.signPower)
    (hfits : needed = false → power < t.leftPower ∧ after ≤ t.rightPower) :
    Opens power after (bracketed needed (written t)) t.erased := by
  cases needed with
  | true =>
    have hzero : 0 < t.leftPower := by cases ht.powers <;> omega
    exact opens_brackets ((h (Nat.zero_le _) hzero).weaken (Nat.zero_le _)) ht.begins
  | false =>
    obtain ⟨hleft, hright⟩ := hfits rfl
    exact (h hpower hleft).weaken hright

theorem Opened.head {power after : Nat} (h : t.Opened) (ht : t.Expression)
    (hpower : power ≤ Kind.signPower) (hafter : after ≤ Kind.period.bindingPower) :
    Opens power after (Node.bracketed t.looseHead (written t)) t.erased := by
  refine h.bracketed ht hpower fun hneeded => ?_
  have hsign : Kind.signPower = 18 := rfl
  have hperiod : Kind.period.bindingPower = 22 := rfl
  cases ht.powers with
  | tight => omega
  | assignment hform | list hform | operation hform | sign hform =>
    rw [looseHead, hform] at hneeded
    cases hneeded

theorem Opened.item (h : t.Opened) (ht : t.Expression) :
    Opens Kind.commaPower Kind.commaPower (Node.item t) t.erased := by
  refine h.bracketed ht (by decide) fun hneeded => ?_
  have hcomma : Kind.commaPower = 8 := rfl
  cases ht.powers with
  | assignment hform | list hform =>
    rw [looseItem, hform] at hneeded
    cases hneeded
  | operation | sign | tight => omega

theorem Expression.opened (h : t.Expression) : t.Opened := by
  have hsign : Kind.signPower = 18 := rfl
  have hcomma : Kind.commaPower = 8 := rfl
  induction h with
  | leaf hkind =>
    intro power _ _
    rw [written_leaf hkind, erased_mk]
    exact opens_leaf hkind
  | @sign kind position operand hkind hoperand ih =>
    intro power hpower _
    have hreads : Opens Kind.signPower Kind.signPower
        (bracketed operand.looseOperand (written operand)) operand.erased := by
      refine ih.bracketed hoperand (Nat.le_refl _) fun hneeded => ?_
      cases hoperand.powers with
      | assignment hform | list hform | operation hform =>
        rw [looseOperand, hform] at hneeded
        cases hneeded
      | sign | tight => omega
    have hright : rightPower ⟨kind, kind.name, position, [operand]⟩ = Kind.signPower := by
      simp only [rightPower, Node.power, form_sign hkind]
    rw [written_sign hkind, erased_mk, hright]
    exact opens_sign hkind hreads
  | @operation kind position left right hkind hl hr hleft hright =>
    intro power hpower hlow
    obtain ⟨hbinds, hbinds'⟩ := operators_power hkind
    have hpowers : leftPower ⟨kind, kind.name, position, [left, right]⟩ = kind.bindingPower ∧
        rightPower ⟨kind, kind.name, position, [left, right]⟩ = kind.bindingPower := by
      simp only [leftPower, rightPower, Node.power, form_operation hkind, and_self]
    rw [hpowers.1] at hlow
    have hreadl : Opens power kind.bindingPower
        (bracketed (left.power < kind.bindingPower) (written left)) left.erased := by
      refine hleft.bracketed hl hpower fun hneeded => ?_
      have hge := of_decide_eq_false hneeded
      cases hl.powers <;> omega
    have hreadr : Opens kind.bindingPower kind.bindingPower
        (bracketed (right.power ≤ kind.bindingPower) (written right)) right.erased := by
      refine hright.bracketed hr (by omega) fun hneeded => ?_
      have hgt := of_decide_eq_false hneeded
      cases hr.powers <;> omega
    rw [written_operation hkind, erased_mk, hpowers.2]
    exact opens_operation hkind hreadl hreadr hlow
  | @assignment kind position left right hkind hl hr hleft hright =>
    intro power hpower hlow
    have hbinds := assignments_power hkind
    have hpowers : leftPower ⟨kind, kind.name, position, [left, right]⟩ = kind.bindingPower ∧
        rightPower ⟨kind, kind.name, position, [left, right]⟩ = kind.bindingPower - 1 := by
      simp only [leftPower, rightPower, Node.power, form_assignment hkind, and_self]
    rw [hpowers.1] at hlow
    have hreadl : Opens power kind.bindingPower
        (bracketed (left.form = .assignment) (written left)) left.erased := by
      refine hleft.bracketed hl hpower fun hneeded => ?_
      have hform := of_decide_eq_false hneeded
      cases hl.powers with
      | assignment hassign => exact absurd hassign hform
      | list | operation | sign | tight => omega
    have hreadr : Opens (kind.bindingPower - 1) (kind.bindingPower - 1) (written right)
        right.erased := by
      have hfits : kind.bindingPower - 1 < right.leftPower ∧
          kind.bindingPower - 1 ≤ right.rightPower := by
        cases hr.powers <;> omega
      exact (hright (by omega) hfits.1).weaken hfits.2
    rw [written_assignment hkind, erased_mk, hpowers.2]
    exact opens_assignment hkind hreadl hreadr hlow
  | @list position first second rest hfirst h ih =>
    intro power hpower hlow
    have hlow : power < Kind.commaPower := hlow
    have hread : Opens power Kind.commaPower
        (bracketed (first.form = .assignment) (written first)) first.erased := by
      refine (ih _ List.mem_cons_self).bracketed (h _ List.mem_cons_self) hpower fun hneeded => ?_
      have hform := of_decide_eq_false hneeded
      cases (h first List.mem_cons_self).powers with
      | assignment hassign => exact absurd hassign hform
      | list _ hkind => exact absurd hkind hfirst
      | operation | sign | tight => omega
    have hitems : commaItems first.erased = [first.erased] := by
      rw [commaItems, if_neg (kind_erased first ▸ hfirst)]
    have hlist := hread.list hlow (List.cons_ne_nil second rest) fun node hnode =>
      (ih node (List.mem_cons_of_mem _ hnode)).item (h node (List.mem_cons_of_mem _ hnode))
    rw [hitems] at hlist
    rw [erased_mk]
    exact hlist
  | @application position callee arguments hcallee h harguments ih iharguments =>
    intro power hpower _
    have hread := ih.head h hpower (show Kind.leftParen.bindingPower ≤ _ by decide)
    have hcall := applied_of_ne (symbol .leftParen) (kind_erased callee ▸ hcallee)
      (arguments.map erased)
    rw [erased_mk, List.map_cons]
    exact hcall ▸ opens_applied hread hpower
      (fun node hnode => (iharguments node hnode).item (harguments node hnode))
      fun node hnode => (harguments node hnode).begins
  | @methodCall position object method place arguments h hmethod harguments ih iharguments =>
    intro power hpower _
    have hfield : Opens power Kind.leftParen.bindingPower
        (bracketed object.looseHead (written object) ++
          [symbol .period, ⟨.identifier, method, .nowhere⟩])
        ⟨.period, Kind.period.name, .nowhere, [object.erased, ⟨.identifier, method, .nowhere, []⟩]⟩ :=
      opens_field (ih.head h hpower (Nat.le_refl _)) hpower
    rw [erased_mk, List.map_cons, List.map_cons]
    exact opens_applied hfield hpower
      (fun node hnode => (iharguments node hnode).item (harguments node hnode))
      fun node hnode => (harguments node hnode).begins
  | @field position object name place h hname ih =>
    intro power hpower _
    exact opens_field (ih.head h hpower (Nat.le_refl _)) hpower
  | @index position object index h hindex ih ihindex =>
    intro power hpower _
    have hinner : Opens 0 0 (written index) index.erased := by
      have hzero : 0 < index.leftPower := by cases hindex.powers <;> omega
      exact (ihindex (Nat.zero_le _) hzero).weaken (Nat.zero_le _)
    exact opens_index (ih.head h hpower (show Kind.leftBracket.bindingPower ≤ _ by decide)) hpower
      hinner

end

/-! ## Lines -/

/-- The statements of a stream that holds an expression. -/
theorem statements_written {t : Node} (h : t.Expression) {fuel : Nat} {finish : Token}
    (hfuel : (written t).length + 2 ≤ fuel) :
    statements (expression fuel) none fuel ⟨written t ++ [symbol .semicolon], finish⟩ =
      .ok ([t.erased], ⟨[], finish⟩) := by
  have hread : expression fuel 0 ⟨written t ++ [symbol .semicolon], finish⟩ =
      .ok (t.erased, ⟨[symbol .semicolon], finish⟩) := by
    have hzero : 0 < t.leftPower := by cases h.powers <;> omega
    exact (h.opened (Nat.zero_le _) hzero).reads (by omega) (Nat.zero_le _) (Nat.le_refl _)
  have hskipped : Stream.skipped ⟨written t ++ [symbol .semicolon], finish⟩ =
      ⟨written t ++ [symbol .semicolon], finish⟩ := by
    obtain ⟨token, more, htokens, -, hkind⟩ := h.begins
    rw [htokens, List.cons_append, Stream.skipped, List.dropWhile_cons, if_neg (by simpa using hkind)]
  obtain ⟨fuel, rfl⟩ : ∃ n, fuel = n + 2 := ⟨fuel - 2, by omega⟩
  refine statements_cons ?_ (hskipped.symm ▸ hread) rfl rfl
  rw [hskipped]
  exact List.append_ne_nil_of_right_ne_nil _ (List.cons_ne_nil _ _)

/-- A line is scanned as its tokens with a semicolon behind them. -/
theorem Line.scanned {tokens : List Token} (h : Line tokens) :
    ∃ front finish, Token.scan (String.ofList (Token.spaced tokens)) = .ok (front ++ [finish]) ∧
      front.map Token.erased = (tokens ++ [symbol .semicolon]).map Token.erased ∧
      finish.erased = ⟨.finish, "", .nowhere⟩ := by
  obtain ⟨last, hlast, hends⟩ := h.ends
  obtain ⟨scanned, hscan, hscanned⟩ := Token.scan_spaced h.writable
  have hclosing : Token.closing .nowhere (tokens.map Token.kind).getLast? =
      [symbol .semicolon] := by
    rw [List.getLast?_map, hlast]
    exact if_pos hends
  rw [hclosing, ← List.append_assoc] at hscanned
  obtain ⟨front, ends, rfl, hfront, hend⟩ := List.map_eq_append_iff.1 hscanned
  obtain ⟨finish, rest, rfl, hfinish, hrest⟩ := List.map_eq_cons_iff.1 hend
  cases List.map_eq_nil_iff.1 hrest
  refine ⟨front, finish, hscan, ?_, hfinish⟩
  rw [hfront, List.map_append]
  rfl

/-- The end of the input is not among the tokens of a line. -/
theorem Line.kind_ne_finish {tokens : List Token} (h : Line tokens) :
    ∀ t ∈ tokens ++ [symbol .semicolon], t.kind ≠ .finish := by
  refine List.forall_mem_append.2 ⟨fun t ht hkind => ?_, List.forall_mem_singleton.2 nofun⟩
  have hwritable := h.writable t ht
  rw [Token.Writable, hkind] at hwritable
  exact hwritable

/-- Tokens are parsed as those that they are alike to. -/
theorem ofTokens_of_alike {row front : List Token} {last finish : Token} {nodes : List Node}
    (hfront : front.map Token.erased = row.map Token.erased)
    (hfinish : finish.erased = last.erased) (hkinds : ∀ t ∈ row, t.kind ≠ .finish)
    (hlast : last.kind = .finish)
    (h : ∀ fuel, row.length < fuel →
      statements (expression fuel) none fuel ⟨row, last⟩ = .ok (nodes, ⟨[], last⟩)) :
    ∃ root, ofTokens (front ++ [finish]) = .ok root ∧
      root.erased = erased ⟨.statements, Kind.statements.name, .nowhere, nodes⟩ := by
  have hkinds' : ∀ t ∈ front, t.kind ≠ .finish := by
    intro t ht
    have hmem : t.erased ∈ row.map Token.erased := hfront ▸ List.mem_map_of_mem ht
    obtain ⟨u, hu, heq⟩ := List.mem_map.1 hmem
    exact Stream.kind_of_erased heq ▸ hkinds u hu
  have halike : Stream.Alike ⟨row, last⟩ ⟨[], finish⟩ ⟨front, finish⟩ :=
    ⟨⟨front, (List.append_nil _).symm, hfront.symm⟩, rfl, fun _ => hfinish.symm⟩
  have hlength : row.length < (front ++ [finish]).length + 2 := by
    have hsame := congrArg List.length hfront
    rw [List.length_map, List.length_map] at hsame
    rw [List.length_append, hsame]
    omega
  obtain ⟨bound, hbound⟩ : ∃ bound, bound = (front ++ [finish]).length + 2 := ⟨_, rfl⟩
  obtain ⟨nodes', s, hnodes, -, hmap⟩ := (reads_statements
    (reads_expression (Nat.le_refl bound)) none (Nat.le_refl bound)).alike halike
      (h bound (hbound ▸ hlength)) (Or.inr rfl)
  have hprogram : program bound ⟨front, finish⟩ = .ok (⟨.statements, Kind.statements.name,
      (Stream.head ⟨front, finish⟩).position, nodes'⟩, s) :=
    bind_eq_ok_iff.2 ⟨_, hnodes, rfl⟩
  refine ⟨⟨.statements, Kind.statements.name, (Stream.head ⟨front, finish⟩).position, nodes'⟩,
    ?_, ?_⟩
  · unfold ofTokens StateT.run'
    rw [← hbound, Stream.ofTokens_eq hkinds' ((Stream.kind_of_erased hfinish).trans hlast),
      hprogram]
    rfl
  · rw [erased_mk, erased_mk, ← hmap]

/-- Scanning and parsing what is written for an expression gives a source of that one expression,
up to places. -/
theorem written_expression_parses {t : Node} (h : t.Expression) :
    ∃ root, Session.Parses t.text root ∧
      root.erased = erased ⟨.statements, Kind.statements.name, .nowhere, [t]⟩ := by
  obtain ⟨front, finish, hscan, hfront, hfinish⟩ := h.line.scanned
  have hfinish' : finish.erased = Token.erased ⟨.finish, "", .nowhere⟩ := hfinish
  have hread : ∀ fuel, (written t ++ [symbol .semicolon]).length < fuel →
      statements (expression fuel) none fuel
        ⟨written t ++ [symbol .semicolon], ⟨.finish, "", .nowhere⟩⟩ =
          .ok ([t.erased], ⟨[], ⟨.finish, "", .nowhere⟩⟩) := by
    intro fuel hfuel
    rw [List.length_append] at hfuel
    exact statements_written h hfuel
  obtain ⟨root, hroot, herased⟩ :=
    ofTokens_of_alike hfront hfinish' h.line.kind_ne_finish rfl hread
  refine ⟨root, ⟨_, hscan, hroot⟩, herased.trans ?_⟩
  rw [erased_mk, erased_mk, List.map_singleton, List.map_singleton, erased_erased]

/-- A sum is written in brackets as a factor, and a sign without them. -/
theorem written_expression_parses_product :
    ∃ (t root : Node), t.Expression ∧ t.text = "( a + b ) * - c" ∧
      Session.Parses "( a + b ) * - c" root ∧
      root.erased = erased ⟨.statements, "stmts", .nowhere, [t]⟩ := by
  have hname : ∀ {x : String} {c : Char}, x.toList = [c] → Lexeme.startsName c = true →
      Kind.ofWord x = .identifier → Expression ⟨.identifier, x, .nowhere, []⟩ :=
    fun hx hc hword => .leaf (by decide) ⟨⟨_, [], hx, hc, nofun⟩, hword⟩
  have ht : Expression ⟨.times, "*", .nowhere,
      [⟨.plus, "+", .nowhere, [⟨.identifier, "a", .nowhere, []⟩, ⟨.identifier, "b", .nowhere, []⟩]⟩,
        ⟨.minus, "-", .nowhere, [⟨.identifier, "c", .nowhere, []⟩]⟩]⟩ :=
    .operation (by decide)
      (.operation (by decide) (hname rfl (by decide) (by decide)) (hname rfl (by decide) (by decide)))
      (.sign (by decide) (hname rfl (by decide) (by decide)))
  obtain ⟨root, hroot, herased⟩ := written_expression_parses ht
  exact ⟨_, root, ht, rfl, hroot, herased⟩

end Node

end Scripting

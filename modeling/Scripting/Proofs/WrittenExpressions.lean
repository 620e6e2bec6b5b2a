import Mathlib.Tactic.FinCases
import Scripting.Proofs.AlikeReaders
import Scripting.Proofs.SpelledTokens

/-!
# Proofs: expressions written with few brackets

An expression of values and operators is written as a row of tokens. An operand gets brackets only
where the powers of the operators demand it: so the left operand of an operator may be another
operator of the same power and the right one may not, since operators group to the left, and an
assignment may stand on the right of an assignment, since assignments group to the right.

What is written can stand on a line, and its last token ends an expression.
-/

namespace Scripting

namespace Kind

/-- The kinds of values that are written as one token. -/
def values : List Kind :=
  [identifier, int, float, string, trueWord, falseWord, nilWord]

/-- The signs in front of an operand. -/
def signs : List Kind := [not, minus]

/-- The operators between two operands. -/
def operators : List Kind :=
  [and, or, equal, notEqual, less, lessEqual, greater, greaterEqual, plus, minus, times, divide,
    modulo]

/-- The operators that assign. -/
def assignments : List Kind := [assign, default, accumulate]

end Kind

namespace Node

/-! ## Expressions -/

/-- What an expression is at its root, as far as brackets depend on it. -/
inductive Form where
  | leaf
  /-- An application, a method call, a field or an element. -/
  | chain
  | sign
  | operation
  | list
  | assignment
  deriving DecidableEq

/-- The form of an expression. -/
def form (node : Node) : Form :=
  match node.kind, node.children with
  | .assign, _ | .default, _ | .accumulate, _ => .assignment
  | .comma, _ => .list
  | .application, _ | .methodCall, _ | .period, _ | .leftBracket, _ => .chain
  | _, [] => .leaf
  | _, [_] => .sign
  | _, _ => .operation

/-- The binding power of the operator at the root. Nothing binds more strongly than leaves and
chains hold together. -/
def power (node : Node) : Nat :=
  match node.form with
  | .leaf | .chain => Kind.period.bindingPower
  | .sign => Kind.signPower
  | .operation | .list | .assignment => node.kind.bindingPower

/-- A tree of operators and values: the trees that the parser makes of sources without blocks,
functions and words that stand for actions. A list in brackets that comes first in another list is
the same list to the parser, and a field that is called is a method. -/
inductive Expression : Node → Prop
  | leaf {kind literal position} (hkind : kind ∈ Kind.values)
    (htoken : Token.Writable ⟨kind, literal, .nowhere⟩) : Expression ⟨kind, literal, position, []⟩
  | sign {kind position operand} (hkind : kind ∈ Kind.signs) (h : Expression operand) :
    Expression ⟨kind, kind.name, position, [operand]⟩
  | operation {kind position left right} (hkind : kind ∈ Kind.operators)
    (hleft : Expression left) (hright : Expression right) :
    Expression ⟨kind, kind.name, position, [left, right]⟩
  | assignment {kind position left right} (hkind : kind ∈ Kind.assignments)
    (hleft : Expression left) (hright : Expression right) :
    Expression ⟨kind, kind.name, position, [left, right]⟩
  | list {position first second rest} (hfirst : first.kind ≠ .comma)
    (h : ∀ item ∈ first :: second :: rest, Expression item) :
    Expression ⟨.comma, Kind.comma.name, position, first :: second :: rest⟩
  | application {position callee arguments} (hcallee : callee.kind ≠ .period)
    (h : Expression callee) (harguments : ∀ argument ∈ arguments, Expression argument) :
    Expression ⟨.application, Kind.application.name, position, callee :: arguments⟩
  | methodCall {position object method place arguments} (h : Expression object)
    (hmethod : Token.Writable ⟨.identifier, method, .nowhere⟩)
    (harguments : ∀ argument ∈ arguments, Expression argument) :
    Expression ⟨.methodCall, Kind.methodCall.name, position,
      object :: ⟨.identifier, method, place, []⟩ :: arguments⟩
  | field {position object name place} (h : Expression object)
    (hname : Token.Writable ⟨.identifier, name, .nowhere⟩) :
    Expression ⟨.period, Kind.period.name, position, [object, ⟨.identifier, name, place, []⟩]⟩
  | index {position object index} (h : Expression object) (hindex : Expression index) :
    Expression ⟨.leftBracket, Kind.leftBracket.name, position, [object, index]⟩

/-! ## Writing -/

/-- A token that is always spelled the same. -/
def symbol (kind : Kind) : Token :=
  ⟨kind, kind.name, .nowhere⟩

/-- Tokens in brackets, if they need them. -/
def bracketed (needed : Bool) (tokens : List Token) : List Token :=
  if needed then symbol .leftParen :: (tokens ++ [symbol .rightParen]) else tokens

/-- Needs what a sign stands before brackets? -/
def looseOperand (node : Node) : Bool :=
  node.form = .operation || node.form = .assignment || node.form = .list

/-- Needs an item of a list brackets? -/
def looseItem (node : Node) : Bool :=
  node.form = .assignment || node.form = .list

/-- Needs brackets what is called, or whose field or element is taken? -/
def looseHead (node : Node) : Bool :=
  !(node.form = .leaf || node.form = .chain)

mutual

/-- The tokens of an expression, with brackets only where they are needed. -/
def written : Node → List Token
  | ⟨.comma, _, _, first :: rest⟩ =>
    bracketed (first.form = .assignment) (written first) ++ writtenMore rest
  | ⟨.application, _, _, callee :: arguments⟩ =>
    bracketed callee.looseHead (written callee) ++
      symbol .leftParen :: (writtenItems arguments ++ [symbol .rightParen])
  | ⟨.methodCall, _, _, object :: method :: arguments⟩ =>
    bracketed object.looseHead (written object) ++ symbol .period :: written method ++
      symbol .leftParen :: (writtenItems arguments ++ [symbol .rightParen])
  | ⟨.period, _, _, [object, field]⟩ =>
    bracketed object.looseHead (written object) ++ symbol .period :: written field
  | ⟨.leftBracket, _, _, [object, index]⟩ =>
    bracketed object.looseHead (written object) ++
      symbol .leftBracket :: (written index ++ [symbol .rightBracket])
  | ⟨kind, literal, _, [operand]⟩ =>
    ⟨kind, literal, .nowhere⟩ :: bracketed operand.looseOperand (written operand)
  | ⟨kind, literal, _, [left, right]⟩ =>
    if kind ∈ Kind.assignments then
      bracketed (left.form = .assignment) (written left) ++
        ⟨kind, literal, .nowhere⟩ :: written right
    else
      bracketed (left.power < kind.bindingPower) (written left) ++
        ⟨kind, literal, .nowhere⟩ :: bracketed (right.power ≤ kind.bindingPower) (written right)
  | ⟨kind, literal, _, _⟩ => [⟨kind, literal, .nowhere⟩]

/-- The tokens of items with commas between them. -/
def writtenItems : List Node → List Token
  | [] => []
  | first :: rest => bracketed first.looseItem (written first) ++ writtenMore rest

/-- The tokens of items, each with a comma in front. -/
def writtenMore : List Node → List Token
  | [] => []
  | item :: rest =>
    symbol .comma :: bracketed item.looseItem (written item) ++ writtenMore rest

end

/-- An item of a list as it is written. -/
def item (node : Node) : List Token :=
  bracketed node.looseItem (written node)

theorem writtenMore_cons (node : Node) (others : List Node) :
    writtenMore (node :: others) = symbol .comma :: (item node ++ writtenMore others) := rfl

theorem writtenItems_cons (node : Node) (others : List Node) :
    writtenItems (node :: others) = item node ++ writtenMore others := rfl

section

variable {kind : Kind} {literal : String} {position : Position} {left right operand : Node}

theorem written_leaf (h : kind ∈ Kind.values) :
    written ⟨kind, literal, position, []⟩ = [⟨kind, literal, .nowhere⟩] := by
  unfold Kind.values at h
  fin_cases h <;> rfl

theorem written_sign (h : kind ∈ Kind.signs) : written ⟨kind, literal, position, [operand]⟩ =
    ⟨kind, literal, .nowhere⟩ :: bracketed operand.looseOperand (written operand) := by
  unfold Kind.signs at h
  fin_cases h <;> rfl

theorem written_operation (h : kind ∈ Kind.operators) :
    written ⟨kind, literal, position, [left, right]⟩ =
      bracketed (left.power < kind.bindingPower) (written left) ++
        ⟨kind, literal, .nowhere⟩ :: bracketed (right.power ≤ kind.bindingPower) (written right) := by
  unfold Kind.operators at h
  fin_cases h <;> rfl

theorem written_assignment (h : kind ∈ Kind.assignments) :
    written ⟨kind, literal, position, [left, right]⟩ =
      bracketed (left.form = .assignment) (written left) ++
        ⟨kind, literal, .nowhere⟩ :: written right := by
  unfold Kind.assignments at h
  fin_cases h <;> rfl

end

/-! ## Powers of expressions -/

/-- An expression that is read at a lower power begins with all of the node. -/
def leftPower (node : Node) : Nat :=
  match node.form with
  | .sign => Kind.period.bindingPower
  | _ => node.power

/-- An operator behind the node that binds no more strongly is left outside. The right side of an
assignment takes in assignments. -/
def rightPower (node : Node) : Nat :=
  match node.form with
  | .assignment => node.power - 1
  | _ => node.power

section

variable {t : Node} {kind : Kind} {literal : String} {position : Position}
  {left right operand : Node}

theorem form_leaf (h : kind ∈ Kind.values) : form ⟨kind, literal, position, []⟩ = .leaf := by
  unfold Kind.values at h
  fin_cases h <;> rfl

theorem form_sign (h : kind ∈ Kind.signs) :
    form ⟨kind, literal, position, [operand]⟩ = .sign := by
  unfold Kind.signs at h
  fin_cases h <;> rfl

theorem form_operation (h : kind ∈ Kind.operators) :
    form ⟨kind, literal, position, [left, right]⟩ = .operation := by
  unfold Kind.operators at h
  fin_cases h <;> rfl

theorem form_assignment (h : kind ∈ Kind.assignments) :
    form ⟨kind, literal, position, [left, right]⟩ = .assignment := by
  unfold Kind.assignments at h
  fin_cases h <;> rfl

theorem operators_power (h : kind ∈ Kind.operators) :
    10 ≤ kind.bindingPower ∧ kind.bindingPower ≤ 16 := by
  revert kind
  decide

theorem assignments_power (h : kind ∈ Kind.assignments) : kind.bindingPower = 4 := by
  revert kind
  decide

/-- The powers of an expression of each form. All that brackets have to do with powers follows from
this table. -/
inductive Powers (node : Node) : Prop
  | assignment (hform : node.form = .assignment) (hleft : node.leftPower = 4)
    (hright : node.rightPower = 3) (hpower : node.power = 4)
  | list (hform : node.form = .list) (hkind : node.kind = .comma) (hleft : node.leftPower = 8)
    (hright : node.rightPower = 8) (hpower : node.power = 8)
  | operation (hform : node.form = .operation) (hleft : node.leftPower = node.power)
    (hright : node.rightPower = node.power) (hlow : 10 ≤ node.power) (hhigh : node.power ≤ 16)
  | sign (hform : node.form = .sign) (hleft : node.leftPower = 22) (hright : node.rightPower = 18)
    (hpower : node.power = 18)
  | tight (hform : node.form = .leaf ∨ node.form = .chain) (hleft : node.leftPower = 22)
    (hright : node.rightPower = 22) (hpower : node.power = 22)

theorem powers_of_form {node : Node} (h : node.form = .leaf ∨ node.form = .chain) :
    node.Powers := by
  refine .tight h ?_ ?_ ?_ <;> rcases h with h | h <;>
    simp only [leftPower, rightPower, power, h] <;> rfl

theorem Expression.powers (h : t.Expression) : t.Powers := by
  cases h with
  | leaf hkind => exact powers_of_form (Or.inl (form_leaf hkind))
  | sign hkind =>
    refine .sign (form_sign hkind) ?_ ?_ ?_ <;>
      simp only [leftPower, rightPower, power, form_sign hkind] <;> rfl
  | operation hkind =>
    obtain ⟨hlow, hhigh⟩ := operators_power hkind
    refine .operation (form_operation hkind) ?_ ?_ ?_ ?_ <;>
      simp only [leftPower, rightPower, power, form_operation hkind]
    · exact hlow
    · exact hhigh
  | assignment hkind =>
    refine .assignment (form_assignment hkind) ?_ ?_ ?_ <;>
      simp only [leftPower, rightPower, power, form_assignment hkind, assignments_power hkind]
  | list => exact .list rfl rfl rfl rfl rfl
  | application | methodCall | field | index => exact powers_of_form (Or.inr rfl)

end

/-! ## First and last tokens -/

/-- The tokens can begin an expression, so they neither close brackets nor separate statements. -/
def Begins (tokens : List Token) : Prop :=
  ∃ token rest, tokens = token :: rest ∧ token.kind ≠ .rightParen ∧ token.kind ≠ .semicolon

section

variable {t node : Node} {token : Token} {tokens more : List Token} {nodes : List Node}

theorem Begins.append (h : Begins tokens) (more : List Token) : Begins (tokens ++ more) := by
  obtain ⟨token, rest, rfl, hkind⟩ := h
  exact ⟨token, rest ++ more, rfl, hkind⟩

theorem begins_bracketed (h : Begins tokens) (needed : Bool) :
    Begins (bracketed needed tokens) := by
  cases needed with
  | false => exact h
  | true => exact ⟨_, _, rfl, nofun, nofun⟩

theorem Expression.begins (h : t.Expression) : Begins (written t) := by
  induction h with
  | leaf hkind =>
    rw [written_leaf hkind]
    refine ⟨_, _, rfl, ?_, ?_⟩ <;> exact ne_of_mem_of_not_mem hkind (by decide)
  | sign hkind =>
    rw [written_sign hkind]
    refine ⟨_, _, rfl, ?_, ?_⟩ <;> exact ne_of_mem_of_not_mem hkind (by decide)
  | operation hkind _ _ hleft =>
    rw [written_operation hkind]
    exact (begins_bracketed hleft _).append _
  | assignment hkind _ _ hleft =>
    rw [written_assignment hkind]
    exact (begins_bracketed hleft _).append _
  | list _ _ hitems => exact (begins_bracketed (hitems _ List.mem_cons_self) _).append _
  | application _ _ _ hcallee => exact (begins_bracketed hcallee _).append _
  | methodCall _ _ _ hobject => exact ((begins_bracketed hobject _).append _).append _
  | field _ _ hobject => exact (begins_bracketed hobject _).append _
  | index _ _ hobject => exact (begins_bracketed hobject _).append _

/-- All tokens can be written, and the last one ends an expression. -/
structure Line (tokens : List Token) : Prop where
  writable : ∀ token ∈ tokens, token.Writable
  ends : ∃ last ∈ tokens.getLast?, last.kind.endsExpression = true

theorem line_singleton (h : token.Writable) (hends : token.kind.endsExpression = true) :
    Line [token] :=
  ⟨fun _ hu => List.mem_singleton.1 hu ▸ h, token, rfl, hends⟩

theorem Line.append (h : ∀ token ∈ tokens, token.Writable) (hmore : Line more) :
    Line (tokens ++ more) := by
  obtain ⟨last, hlast, hends⟩ := hmore.ends
  refine ⟨List.forall_mem_append.2 ⟨h, hmore.writable⟩, last, ?_, hends⟩
  rw [List.getLast?_append, hlast]
  rfl

theorem Line.cons (htoken : token.Writable) (h : Line tokens) : Line (token :: tokens) :=
  Line.append (List.forall_mem_singleton.2 htoken) h

theorem line_bracketed (h : Line tokens) (needed : Bool) : Line (bracketed needed tokens) := by
  cases needed with
  | false => exact h
  | true => exact .cons rfl (.append h.writable (line_singleton rfl rfl))

theorem writable_more (h : ∀ node ∈ nodes, Line (written node)) :
    ∀ token ∈ writtenMore nodes, token.Writable := by
  induction nodes with
  | nil => exact nofun
  | cons node nodes ih =>
    obtain ⟨hnode, hnodes⟩ := List.forall_mem_cons.1 h
    rw [writtenMore_cons]
    exact List.forall_mem_cons.2 ⟨rfl, List.forall_mem_append.2
      ⟨(line_bracketed hnode _).writable, ih hnodes⟩⟩

theorem writable_items (h : ∀ node ∈ nodes, Line (written node)) :
    ∀ token ∈ writtenItems nodes, token.Writable := by
  cases nodes with
  | nil => exact nofun
  | cons node nodes =>
    obtain ⟨hnode, hnodes⟩ := List.forall_mem_cons.1 h
    exact List.forall_mem_append.2 ⟨(line_bracketed hnode _).writable, writable_more hnodes⟩

theorem line_more (hne : nodes ≠ []) (h : ∀ node ∈ nodes, Line (written node)) :
    Line (writtenMore nodes) := by
  induction nodes with
  | nil => exact absurd rfl hne
  | cons node nodes ih =>
    obtain ⟨hnode, hnodes⟩ := List.forall_mem_cons.1 h
    have hitem : Line (item node) := line_bracketed hnode _
    rw [writtenMore_cons]
    cases nodes with
    | nil => exact .cons rfl ((List.append_nil (item node)).symm ▸ hitem)
    | cons second others =>
      exact .cons rfl (.append hitem.writable (ih (List.cons_ne_nil _ _) hnodes))

theorem line_arguments (h : ∀ node ∈ nodes, Line (written node)) :
    Line (symbol .leftParen :: (writtenItems nodes ++ [symbol .rightParen])) :=
  .cons rfl (.append (writable_items h) (line_singleton rfl rfl))

theorem Expression.line (h : t.Expression) : Line (written t) := by
  induction h with
  | @leaf kind literal position hkind htoken =>
    rw [written_leaf hkind]
    refine line_singleton htoken ?_
    unfold Kind.values at hkind
    fin_cases hkind <;> rfl
  | @sign kind position operand hkind _ ih =>
    rw [written_sign hkind]
    refine .cons ?_ (line_bracketed ih _)
    unfold Kind.signs at hkind
    fin_cases hkind <;> rfl
  | @operation kind position left right hkind _ _ hleft hright =>
    rw [written_operation hkind]
    refine .append (line_bracketed hleft _).writable (.cons ?_ (line_bracketed hright _))
    unfold Kind.operators at hkind
    fin_cases hkind <;> rfl
  | @assignment kind position left right hkind _ _ hleft hright =>
    rw [written_assignment hkind]
    refine .append (line_bracketed hleft _).writable (.cons ?_ hright)
    unfold Kind.assignments at hkind
    fin_cases hkind <;> rfl
  | list _ _ ih =>
    obtain ⟨hfirst, hothers⟩ := List.forall_mem_cons.1 ih
    exact .append (line_bracketed hfirst _).writable (line_more (List.cons_ne_nil _ _) hothers)
  | application _ _ _ ih iharguments =>
    exact .append (line_bracketed ih _).writable (line_arguments iharguments)
  | @methodCall _ object method _ _ _ hmethod _ ih iharguments =>
    have hname : Line [symbol .period, ⟨.identifier, method, .nowhere⟩] :=
      .cons rfl (line_singleton hmethod rfl)
    have hobject := Line.append (line_bracketed ih object.looseHead).writable hname
    exact .append hobject.writable (line_arguments iharguments)
  | field _ hname ih =>
    exact .append (line_bracketed ih _).writable (.cons rfl (line_singleton hname rfl))
  | index _ _ ih ihindex =>
    exact .append (line_bracketed ih _).writable
      (.cons rfl (.append ihindex.writable (line_singleton rfl rfl)))

end

/-- The text of an expression on a line. -/
def text (t : Node) : String :=
  String.ofList (Token.spaced (written t))

end Node

end Scripting

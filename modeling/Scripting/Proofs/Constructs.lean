import Scripting.Proofs.Compiling

/-!
# Proofs: the code of each construct

The compiler decides by the kind of a node and the number of its children at once. These equations
give the code of a node that has the number of children that its construct needs.
-/

namespace Scripting.Node

variable {analysis? : Path → Option Analysis} {inLoop : Bool} {path : Path} {kind : Kind}
  {literal : String} {position : Position} {children : List Node} {left right : Node}

theorem compile_int : compile analysis? inLoop path ⟨.int, literal, position, children⟩ =
    number .int literal position :=
  rfl

theorem compile_float : compile analysis? inLoop path ⟨.float, literal, position, children⟩ =
    number .float literal position :=
  rfl

/-- The code of a node whose text is not read as a number. -/
def constant? (kind : Kind) (literal : String) : Option Literal :=
  match kind with
  | .string => some (.string literal)
  | .trueWord => some (.bool true)
  | .falseWord => some (.bool false)
  | .nilWord => some .nil
  | _ => none

theorem compile_constant {value : Literal} (h : constant? kind literal = some value) :
    compile analysis? inLoop path ⟨kind, literal, position, children⟩ = .ok (.literal value) := by
  cases kind <;> cases h <;> rfl

theorem compile_identifier :
    compile analysis? inLoop path ⟨.identifier, literal, position, children⟩ =
      .ok (.name literal position) :=
  rfl

theorem compile_statements :
    compile analysis? inLoop path ⟨.statements, literal, position, children⟩ =
      (do return .statements (← compileAll analysis? inLoop path 0 children)) :=
  rfl

theorem compile_tuple (h : kind = .comma ∨ kind = .leftParen) :
    compile analysis? inLoop path ⟨kind, literal, position, children⟩ =
      (do return .tuple (← compileAll analysis? inLoop path 0 children)) := by
  rcases h with rfl | rfl <;> rfl

theorem compile_assign :
    compile analysis? inLoop path ⟨.assign, literal, position, [left, right]⟩ = (do
      let names ← targets .assign position [left, right]
      return .assign names (← compile analysis? inLoop (1 :: path) right) position) :=
  rfl

theorem compile_default :
    compile analysis? inLoop path ⟨.default, literal, position, [left, right]⟩ = (do
      let names ← targets .default position [left, right]
      return .default names (← compile analysis? inLoop (1 :: path) right) position) :=
  rfl

theorem compile_accumulation {name : String} {place : Position} {below : List Node} :
    compile analysis? inLoop path
        ⟨.accumulate, literal, position, [⟨.identifier, name, place, below⟩, right]⟩ =
      (do return .accumulate name (← compile analysis? inLoop (1 :: path) right) position) :=
  rfl

theorem compile_accumulation_refused (h : left.kind ≠ .identifier) :
    compile analysis? inLoop path ⟨.accumulate, literal, position, left :: children⟩ =
      .error ⟨.invalidTarget .accumulate, position⟩ := by
  obtain ⟨kind, name, place, below⟩ := left
  cases kind with
  | identifier => exact absurd rfl h
  | _ => rfl

theorem compile_logical (h : kind = .and ∨ kind = .or) :
    compile analysis? inLoop path ⟨kind, literal, position, [left, right]⟩ = (do
      let first ← compile analysis? inLoop (0 :: path) left
      return .logical (kind = .or) first (← compile analysis? inLoop (1 :: path) right)
        position) := by
  rcases h with rfl | rfl <;> rfl

theorem compile_binary {op : BinaryOp} (h : kind.binaryOp? = some op) :
    compile analysis? inLoop path ⟨kind, literal, position, [left, right]⟩ = (do
      let first ← compile analysis? inLoop (0 :: path) left
      return .binary op first (← compile analysis? inLoop (1 :: path) right) position) := by
  cases kind <;> cases h <;> rfl

theorem compile_not : compile analysis? inLoop path ⟨.not, literal, position, [left]⟩ =
    (do return .unary .not (← compile analysis? inLoop (0 :: path) left) position) :=
  rfl

theorem compile_negate : compile analysis? inLoop path ⟨.minus, literal, position, [left]⟩ =
    (do return .unary .negate (← compile analysis? inLoop (0 :: path) left) position) :=
  rfl

theorem compile_branches {codes : List Code}
    (h : compileAll analysis? inLoop path 0 children = .ok codes) (hcodes : 2 ≤ codes.length) :
    compile analysis? inLoop path ⟨.ifWord, literal, position, children⟩ =
      .ok (.branches position codes) := by
  rw [compile.eq_def]
  dsimp only
  rw [h]
  cases codes with
  | nil => cases hcodes
  | cons condition rest =>
    cases rest with
    | nil => exact absurd (show 2 ≤ 1 from hcodes) (by decide)
    | cons block rest => rfl

theorem compile_loop : compile analysis? inLoop path ⟨.whileWord, literal, position, [left, right]⟩ =
    (do
      let condition ← compile analysis? inLoop (0 :: path) left
      return .loop condition (← compile analysis? true (1 :: path) right) position) :=
  rfl

theorem compile_return_nothing :
    compile analysis? inLoop path ⟨.returnWord, literal, position, []⟩ =
      .ok (.return .nothing) :=
  rfl

theorem compile_return : compile analysis? inLoop path ⟨.returnWord, literal, position, [left]⟩ =
    (do return .return (← compile analysis? inLoop (0 :: path) left)) :=
  rfl

theorem compile_break : compile analysis? inLoop path ⟨.breakWord, literal, position, children⟩ =
    if inLoop then .ok .break else .error ⟨.outsideLoop .breakWord, position⟩ :=
  rfl

theorem compile_continue :
    compile analysis? inLoop path ⟨.continueWord, literal, position, children⟩ =
      if inLoop then .ok .continue else .error ⟨.outsideLoop .continueWord, position⟩ :=
  rfl

theorem compile_declared : compile analysis? inLoop path ⟨.externWord, literal, position, children⟩ =
    .ok .nothing :=
  rfl

theorem compile_function {a : Analysis} (ha : analysis? path = some a) {body : Node} :
    compile analysis? inLoop path ⟨.funcWord, literal, position, [left, right, body]⟩ =
      (do return closure a (← compile analysis? false (2 :: path) body) position) := by
  rw [compile.eq_def]
  dsimp only
  rw [ha]

theorem compile_apply :
    compile analysis? inLoop path ⟨.application, literal, position, left :: children⟩ = (do
      let callee ← compile analysis? inLoop (0 :: path) left
      return .apply callee (.tuple (← compileAll analysis? inLoop path 1 children)) position) :=
  rfl

/-- Kinds of nodes that have no code. -/
theorem compile_refused (h : kind ∈ [Kind.illegal, .finish, .period, .semicolon, .rightParen,
    .leftBracket, .rightBracket, .leftBrace, .rightBrace, .elseWord, .methodCall]) :
    compile analysis? inLoop path ⟨kind, literal, position, children⟩ =
      .error ⟨.unknownOperator kind literal, position⟩ := by
  cases kind with
  | illegal | finish | period | semicolon | rightParen | leftBracket | rightBracket | leftBrace
  | rightBrace | elseWord | methodCall => rfl
  | _ => exact absurd h (by decide)

end Scripting.Node

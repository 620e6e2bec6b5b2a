import Scripting.Analysis.Program
import Scripting.Code
import Scripting.Decimal.Reading

/-!
# From a tree to code

Compiling refuses what cannot be executed before anything is: constructs without a meaning, literals
out of range, targets that are no names, and a break or continue that no loop encloses. The faults
are found in the order of the source, and the first one counts.
-/

namespace Scripting

/-- Why the text of a number denotes none. -/
inductive LiteralFault where
  | integer (fault : Decimal.IntegerFault)
  | float (fault : Decimal.FloatFault)
  deriving DecidableEq, Repr

/-- The wording of a fault. -/
def LiteralFault.message : LiteralFault → String
  | integer fault => fault.message
  | float fault => fault.message

/-- Why a node has no code. -/
inductive CompileFault where
  /-- The kind of node has no meaning. -/
  | unknownOperator (kind : Kind) (literal : String)
  /-- The text of a number denotes none. -/
  | invalidLiteral (kind : Kind) (literal : String) (reason : LiteralFault)
  /-- An assignment to something that is no name. -/
  | invalidTarget (operator : Kind)
  /-- A break or continue that no loop of its function encloses. -/
  | outsideLoop (keyword : Kind)
  /-- A node with the wrong number of children. -/
  | malformed (kind : Kind)
  /-- A function that has no analysis. -/
  | missingAnalysis
  deriving DecidableEq, Repr

/-- The wording of a fault. -/
def CompileFault.message : CompileFault → String
  | unknownOperator kind literal => "unknown operator " ++ kind.name ++ "/" ++ literal
  | invalidLiteral kind literal reason =>
    "error converting " ++ kind.name ++ " literal " ++ literal ++ ": " ++ reason.message
  | invalidTarget operator =>
    "left-hand side of " ++ operator.name ++ " must be one or more identifiers"
  | outsideLoop keyword => keyword.name ++ " outside of a loop"
  | malformed kind => "malformed " ++ kind.name ++ " expression"
  | missingAnalysis => "function was not analyzed before compiling"

/-- A node that has no code. -/
structure CompileError where
  /-- What is wrong. -/
  fault : CompileFault
  /-- Where the node stands. -/
  position : Position
  deriving DecidableEq, Repr

/-- The wording of an error with its place. -/
def CompileError.message (e : CompileError) : String :=
  e.position.report e.fault.message

namespace Kind

/-- The operator that a kind of node with two children stands for. -/
def binaryOp? : Kind → Option BinaryOp
  | plus => some .add
  | minus => some .subtract
  | times => some .multiply
  | divide => some .divide
  | modulo => some .remainder
  | equal => some .equal
  | notEqual => some .notEqual
  | less => some .less
  | lessEqual => some .lessEqual
  | greater => some .greater
  | greaterEqual => some .greaterEqual
  | _ => none

end Kind

namespace Node

/-- The names on the left side of an assignment: one name or a list of them. -/
def targets (operator : Kind) (position : Position) (children : List Node) :
    Except CompileError (List String) :=
  match children with
  | [] => .error ⟨.invalidTarget operator, position⟩
  | target :: _ => target.listed.mapM fun node =>
    if node.kind = .identifier then .ok node.literal
    else .error ⟨.invalidTarget operator, position⟩

/-- The code of a literal number. -/
def number (kind : Kind) (literal : String) (position : Position) : Except CompileError Code :=
  match kind with
  | .int =>
    match Decimal.readInt64 literal.toList with
    | .ok n => .ok (.literal (.int n))
    | .error e => .error ⟨.invalidLiteral kind literal (.integer e), position⟩
  | _ =>
    match Decimal.readFloat literal.toList with
    | .ok x => .ok (.literal (.float x))
    | .error e => .error ⟨.invalidLiteral kind literal (.float e), position⟩

/-- The code of a function, given its analysis and the code of its body. -/
def closure (a : Analysis) (body : Code) (position : Position) : Code :=
  .function a.parameters a.channels a.locals.toList a.free.toList (a.captures \ a.free).toList body
    position

mutual

/-- The code of the node at `path`. Analyses are looked up by path, and `inLoop` says whether a loop
of the same function encloses the node. -/
def compile (analysis? : Path → Option Analysis) (inLoop : Bool) (path : Path) :
    Node → Except CompileError Code
  | ⟨kind, literal, position, children⟩ =>
    let malformed : Except CompileError Code := .error ⟨.malformed kind, position⟩
    match kind with
    | .int | .float => number kind literal position
    | .string => .ok (.literal (.string literal))
    | .trueWord => .ok (.literal (.bool true))
    | .falseWord => .ok (.literal (.bool false))
    | .nilWord => .ok (.literal .nil)
    | .identifier => .ok (.name literal position)
    | .statements => return .statements (← compileAll analysis? inLoop path 0 children)
    | .comma | .leftParen => return .tuple (← compileAll analysis? inLoop path 0 children)
    | .assign => do
      let targets ← targets kind position children
      match children with
      | _ :: value :: _ =>
        return .assign targets (← compile analysis? inLoop (1 :: path) value) position
      | _ => malformed
    | .default => do
      let targets ← targets kind position children
      match children with
      | _ :: value :: _ =>
        return .default targets (← compile analysis? inLoop (1 :: path) value) position
      | _ => malformed
    | .accumulate =>
      match children with
      | ⟨.identifier, target, _, _⟩ :: rest =>
        match rest with
        | value :: _ => do
          return .accumulate target (← compile analysis? inLoop (1 :: path) value) position
        | [] => malformed
      | _ => .error ⟨.invalidTarget kind, position⟩
    | .and | .or =>
      match children with
      | [left, right] => do
        let left ← compile analysis? inLoop (0 :: path) left
        let right ← compile analysis? inLoop (1 :: path) right
        return .logical (kind = .or) left right position
      | _ => malformed
    | .not =>
      match children with
      | [operand] => return .unary .not (← compile analysis? inLoop (0 :: path) operand) position
      | _ => malformed
    | .ifWord => do
      match ← compileAll analysis? inLoop path 0 children with
      | condition :: block :: rest => return .branches position (condition :: block :: rest)
      | _ => malformed
    | .whileWord =>
      match children with
      | condition :: body :: _ => do
        let condition ← compile analysis? inLoop (0 :: path) condition
        return .loop condition (← compile analysis? true (1 :: path) body) position
      | _ => malformed
    | .returnWord =>
      match children with
      | [] => .ok (.return .nothing)
      | operand :: _ => return .return (← compile analysis? inLoop (0 :: path) operand)
    | .breakWord =>
      if inLoop then .ok .break else .error ⟨.outsideLoop kind, position⟩
    | .continueWord =>
      if inLoop then .ok .continue else .error ⟨.outsideLoop kind, position⟩
    | .externWord => .ok .nothing
    | .funcWord =>
      match analysis? path with
      | none => .error ⟨.missingAnalysis, position⟩
      | some a =>
        match children with
        | _ :: _ :: body :: _ =>
          return closure a (← compile analysis? false (2 :: path) body) position
        | _ => malformed
    | .application =>
      match children with
      | [] => malformed
      | callee :: arguments => do
        let callee ← compile analysis? inLoop (0 :: path) callee
        let arguments ← compileAll analysis? inLoop path 1 arguments
        return .apply callee (.tuple arguments) position
    | .illegal | .finish | .period | .semicolon | .rightParen | .leftBracket | .rightBracket
    | .leftBrace | .rightBrace | .elseWord | .methodCall =>
      .error ⟨.unknownOperator kind literal, position⟩
    | .plus | .minus | .times | .divide | .modulo | .equal | .notEqual | .less | .lessEqual
    | .greater | .greaterEqual =>
      match kind.binaryOp?, children with
      | some op, [left, right] => do
        let left ← compile analysis? inLoop (0 :: path) left
        let right ← compile analysis? inLoop (1 :: path) right
        return .binary op left right position
      | some .subtract, [operand] =>
        return .unary .negate (← compile analysis? inLoop (0 :: path) operand) position
      | _, _ => malformed

/-- The code of children of the node at `path`, the first of them number `index`. -/
def compileAll (analysis? : Path → Option Analysis) (inLoop : Bool) (path : Path) (index : Nat) :
    List Node → Except CompileError (List Code)
  | [] => .ok []
  | node :: rest => do
    let first ← compile analysis? inLoop (index :: path) node
    return first :: (← compileAll analysis? inLoop path (index + 1) rest)

end

end Node

namespace Program

/-- The code of an analysed program. -/
def compile (p : Program) : Except CompileError Code :=
  p.root.compile p.analysis? false []

end Program

end Scripting

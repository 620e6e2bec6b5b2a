import Scripting.Position

/-!
# Executable code

A program is executed in a form with few constructs, each with a fixed number of parts. Lists of
statements and tuples are chains of pairs, and a conditional with many branches is a chain of
conditionals. Every construct that can fail carries the place that its errors name.

Evaluating code yields a list of values.
-/

namespace Scripting

/-- A constant of a program. -/
inductive Literal where
  | nil
  | bool (b : Bool)
  | int (n : Int64)
  | float (x : Float)
  | string (s : String)

/-- An operator on one value. -/
inductive UnaryOp where
  | negate
  | not
  deriving DecidableEq, Repr

/-- An operator on two values. -/
inductive BinaryOp where
  | add
  | subtract
  | multiply
  | divide
  | remainder
  | equal
  | notEqual
  | less
  | lessEqual
  | greater
  | greaterEqual
  deriving DecidableEq, Repr

/-- What only the library itself can do. -/
inductive Primitive where
  /-- Writes the variable `value` and a line end to the output. -/
  | print
  /-- Yields the time. -/
  | clock
  deriving DecidableEq, Repr

/-- Executable code. -/
inductive Code where
  /-- Yields a constant. -/
  | literal (value : Literal)
  /-- Yields the value of a variable. -/
  | name (name : String) (position : Position)
  /-- Yields no value. -/
  | nothing
  /-- Two stretches of statements, of which the last one's values count. -/
  | sequence (first rest : Code)
  /-- Two stretches of a tuple. -/
  | both (first rest : Code)
  /-- `t, … := value` -/
  | assign (targets : List String) (value : Code) (position : Position)
  /-- `target += value` -/
  | accumulate (target : String) (value : Code) (position : Position)
  /-- `t, … ?= value` -/
  | default (targets : List String) (value : Code) (position : Position)
  | unary (op : UnaryOp) (operand : Code) (position : Position)
  | binary (op : BinaryOp) (left right : Code) (position : Position)
  /-- Yields the left value if it is as truthy as `decides`, otherwise what the right side yields. -/
  | logical (decides : Bool) (left right : Code) (position : Position)
  | branch (condition yes no : Code) (position : Position)
  | loop (condition body : Code) (position : Position)
  /-- Ends the call with the operand's values. -/
  | return (operand : Code)
  | break
  | continue
  /-- Yields a new function. It must find a cell for each name of `free`, and takes along those of
  `passed` that it finds. -/
  | function (parameters channels locals free passed : List String) (body : Code)
      (position : Position)
  | apply (callee arguments : Code) (position : Position)
  | primitive (p : Primitive)

namespace Code

/-- Statements one after the other. -/
def statements : List Code → Code
  | [] => nothing
  | [last] => last
  | first :: rest => sequence first (statements rest)

/-- The values of several stretches together. -/
def tuple : List Code → Code
  | [] => nothing
  | [last] => last
  | first :: rest => both first (tuple rest)

/-- Conditions and blocks in turn, and a last block for when no condition holds. -/
def branches (position : Position) : List Code → Code
  | [] => nothing
  | [last] => last
  | condition :: block :: rest => branch condition block (branches position rest) position

end Code

end Scripting

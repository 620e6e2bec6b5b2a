import Scripting.Evaluation.State
import Scripting.Value.Text

/-!
# Evaluation

`evaluate` goes through the code once for each time that it is reached; only rounds of loops and
bodies of functions need a bound. `evaluate` is given the way to run the body of a function, and
`run` closes the knot: its bound falls with each call inside a call, and also limits the rounds of
every loop.

A signal that comes from a part of a construct ends the construct and becomes its result. Two
constructs take signals in: a loop those of its body, and a call those that return.
-/

namespace Scripting

namespace Eval

/-! ## Parts of constructs -/

/-- Goes on with the values of a part, unless they are a signal. -/
def unlessSignal (part : Eval (List Value)) (next : List Value → Eval (List Value)) :
    Eval (List Value) := do
  let values ← part
  if Value.isSignal values then return values else next values

/-- The only member of a list of values. -/
def single (position : Position) : List Value → Eval Value
  | [value] => return value
  | values => fail (.valueCount values.length) position

/-- Goes on with the only value of a part, unless it is a signal. -/
def withOperand (part : Eval (List Value)) (position : Position)
    (next : Value → Eval (List Value)) : Eval (List Value) :=
  unlessSignal part fun values => do next (← single position values)

/-- Goes round a loop at most `bound` times. -/
def iterate (condition body : Eval (List Value)) (position : Position) : (bound : Nat) →
    Eval (List Value)
  | 0 => exhausted
  | bound + 1 => withOperand condition position fun test => do
    if test.isTruthy then
      let result ← body
      match result with
      | [.control .breaking] => return [.bool false]
      | [.control (.returning _)] => return result
      | _ => iterate condition body position bound
    else return [.bool true]

/-- Fails unless there are as many values as targets. -/
def matchCounts (targets : List String) (values : List Value) (position : Position) : Eval Unit :=
  if values.length = targets.length then return ()
  else fail (.assignmentCount targets.length values.length) position

/-! ## Functions -/

/-- The cells of names that must have one. -/
def captureAll (scope : Scope) (position : Position) (captured : NameMap CellId) :
    List String → Eval (NameMap CellId)
  | [] => return captured
  | name :: rest => do
    match (← get).store.cell? scope name with
    | some cell => captureAll scope position (captured.insert name cell) rest
    | none => fail (.capture name) position

/-- The cells of those names that have one. -/
def captureFound (scope : Scope) (captured : NameMap CellId) (names : List String) :
    Eval (NameMap CellId) := do
  let store := (← get).store
  return names.foldl (fun captured name => match store.cell? scope name with
    | some cell => captured.insert name cell
    | none => captured) captured

/-- The scope in which the body of a function starts, inside the frames given: it binds the cells
taken along, then the locals to nil, then the parameters to the arguments. -/
def enter (f : Function) (arguments : List Value) (outer : List FrameId) (position : Position) :
    Eval Scope := do
  let scope : Scope := ⟨← newFrame f.captured, outer⟩
  assignNames scope position (f.locals.map (·, .nil))
  assignNames scope position (f.parameters.zip arguments)
  return scope

/-- The values that a call yields for those of the body. -/
def returned (values : List Value) : List Value :=
  match values with
  | [.control (.returning values)] => values
  | _ => values

/-- Calls a function from a scope. -/
def call (body : Code → Scope → Eval (List Value)) (f : Function) (arguments : List Value)
    (caller : Scope) (position : Position) : Eval (List Value) := do
  if arguments.length = f.arity then
    let scope ← enter f arguments caller.chain position
    return returned (← body f.body scope)
  else fail (.argumentCount f.arity arguments.length) position

/-- Does what only the library itself can do. -/
def primitive (p : Primitive) (scope : Scope) : Eval (List Value) := do
  match p with
  | .print =>
    let value ← readName scope "value" .nowhere
    print (value.text ++ "\n")
    return []
  | .clock => return [.float (← readClock)]

end Eval

open Eval

namespace Code

/-! ## The evaluator -/

/-- Evaluates code in a scope. `call` calls a function, and `bound` limits the rounds of a loop. -/
def evaluate (call : Function → List Value → Scope → Position → Eval (List Value)) (bound : Nat) :
    Code → Scope → Eval (List Value)
  | .literal value, _ => return [value.value]
  | .name x position, scope => return [← readName scope x position]
  | .nothing, _ => return []
  | .sequence first rest, scope =>
    unlessSignal (evaluate call bound first scope) fun _ => evaluate call bound rest scope
  | .both first rest, scope =>
    unlessSignal (evaluate call bound first scope) fun left =>
    unlessSignal (evaluate call bound rest scope) fun right => return left ++ right
  | .assign targets value position, scope =>
    unlessSignal (evaluate call bound value scope) fun values => do
      matchCounts targets values position
      assignAll scope position (targets.zip values)
      return values
  | .accumulate target value position, scope =>
    withOperand (evaluate call bound value scope) position fun operand => do
      let current ← readName scope target position
      let sum ← operate position (current.add operand)
      assignName scope position target sum
      return [sum]
  | .default targets value position, scope => do
    let store := (← get).store
    let current := targets.map fun target => (store.value? scope target).getD .nil
    if current.all fun value => !value.isNil then return current
    else unlessSignal (evaluate call bound value scope) fun values => do
      matchCounts targets values position
      let writes := (targets.zip (current.zip values)).filter fun (_, old, _) => old.isNil
      assignAll scope position (writes.map fun (target, _, value) => (target, value))
      targets.mapM fun target => readName scope target position
  | .unary op operand position, scope =>
    withOperand (evaluate call bound operand scope) position fun value => do
      return [← operate position (op.apply value)]
  | .binary op left right position, scope =>
    withOperand (evaluate call bound left scope) position fun a =>
    withOperand (evaluate call bound right scope) position fun b => do
      return [← operate position (op.apply a b)]
  | .logical decides left right position, scope =>
    withOperand (evaluate call bound left scope) position fun value =>
      if value.isTruthy = decides then return [value] else evaluate call bound right scope
  | .branch condition yes no position, scope =>
    withOperand (evaluate call bound condition scope) position fun test =>
      if test.isTruthy then evaluate call bound yes scope else evaluate call bound no scope
  | .loop condition body position, scope =>
    iterate (evaluate call bound condition scope) (evaluate call bound body scope) position bound
  | .return operand, scope =>
    unlessSignal (evaluate call bound operand scope) fun values =>
      return [.control (.returning values)]
  | .break, _ => return [.control .breaking]
  | .continue, _ => return [.control .continuing]
  | .function parameters channels locals free passed body position, scope => do
    let captured ← captureAll scope position ∅ free
    let captured ← captureFound scope captured passed
    return [.function ⟨← newFunctionId, parameters, channels, locals, body, captured⟩]
  | .apply callee arguments position, scope =>
    withOperand (evaluate call bound callee scope) position fun
      | .function f => unlessSignal (evaluate call bound arguments scope) fun values =>
        call f values scope position
      | other => fail (.notCallable other.type) position
  | .primitive p, scope => Eval.primitive p scope

/-- Evaluates code in a scope, calls inside calls and rounds of loops up to a bound. -/
def run : (fuel : Nat) → Code → Scope → Eval (List Value)
  | 0 => fun _ _ => exhausted
  | fuel + 1 => evaluate (Eval.call (run fuel)) fuel

end Code

end Scripting

import Scripting.Value.Operators

/-!
# Sameness of values

Sameness is defined for all values. Functions are the same if they are one function, and signals if
they have the same content. Other values are the same if they compare equal; of different types they
are never.
-/

namespace Scripting

mutual

/-- Are two values the same? -/
def Value.same : Value → Value → Bool
  | .function f, .function g => f.id == g.id
  | .control s, .control t => Signal.same s t
  | .nil, b => (Value.nil.equals b).toOption.getD false
  | .bool a, b => ((Value.bool a).equals b).toOption.getD false
  | .int a, b => ((Value.int a).equals b).toOption.getD false
  | .float a, b => ((Value.float a).equals b).toOption.getD false
  | .string a, b => ((Value.string a).equals b).toOption.getD false
  | _, _ => false

/-- Are two signals the same? -/
def Signal.same : Signal → Signal → Bool
  | .returning a, .returning b => Value.sameAll a b
  | .breaking, .breaking => true
  | .continuing, .continuing => true
  | _, _ => false

/-- Are two lists of values the same, member by member? -/
def Value.sameAll : List Value → List Value → Bool
  | [], [] => true
  | a :: as, b :: bs => Value.same a b && Value.sameAll as bs
  | _, _ => false

end

end Scripting

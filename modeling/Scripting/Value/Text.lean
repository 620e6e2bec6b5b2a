import Scripting.Decimal.Writing
import Scripting.Value

/-!
# Values as text

The text that is printed for a value. A string is printed as it is, and a function by its
parameters and channels.
-/

namespace Scripting

/-- The text of a function. -/
def Function.text (f : Function) : String :=
  "func(" ++ ", ".intercalate f.parameters ++ ")[" ++ ", ".intercalate f.channels ++ "]\x7b...\x7d"

mutual

/-- The text of a value. -/
def Value.text : Value → String
  | .nil => "nil"
  | .bool b => if b then "true" else "false"
  | .int n => toString n.toInt
  | .float x => Decimal.writeFloat x
  | .string s => s
  | .function f => f.text
  | .control s => Signal.text s

/-- The text of a signal. -/
def Signal.text : Signal → String
  | .returning values => "<return " ++ Value.joined values ++ ">"
  | .breaking => "<break>"
  | .continuing => "<continue>"

/-- The texts of several values, separated by commas. -/
def Value.joined : List Value → String
  | [] => ""
  | [value] => Value.text value
  | value :: rest => Value.text value ++ ", " ++ Value.joined rest

end

end Scripting

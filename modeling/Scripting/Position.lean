/-!
# Places and failures

A failure names a place of a source. Lines and columns are counted from one, and a column is a
number of characters, whatever their width. Work whose length is not known beforehand is done under
a bound; it stops early for a reason of its own, or because the bound was too small, which says
nothing about the work.
-/

namespace Scripting

/-! ## Places -/

/-- A line and a column of a source. -/
structure Position where
  /-- The line, counted from one. -/
  line : Nat
  /-- The column, counted from one. -/
  column : Nat
  deriving DecidableEq, Repr, Inhabited

namespace Position

/-- Where a source starts. -/
def start : Position := ⟨1, 1⟩

/-- The position that stands for no place of any source. -/
def nowhere : Position := ⟨0, 0⟩

/-- The next column of the same line. -/
def right (p : Position) : Position := ⟨p.line, p.column + 1⟩

/-- The start of the next line. -/
def below (p : Position) : Position := ⟨p.line + 1, 1⟩

/-- A position as `line:column`. -/
def text (p : Position) : String :=
  toString p.line ++ ":" ++ toString p.column

/-- A message that names its place. -/
def report (p : Position) (message : String) : String :=
  p.text ++ ": " ++ message

end Position

/-! ## Stops -/

/-- Why a bounded computation gave no result. -/
inductive Stop (ε : Type) where
  /-- The computation failed. -/
  | error (e : ε)
  /-- The bound was reached. -/
  | outOfFuel
  deriving DecidableEq, Repr

/-- Another reading of the failure. -/
def Stop.map {ε δ : Type} (f : ε → δ) : Stop ε → Stop δ
  | error e => error (f e)
  | outOfFuel => outOfFuel

end Scripting

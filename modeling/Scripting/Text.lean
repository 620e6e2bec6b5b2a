/-!
# Texts

What the program needs of texts and their characters. A property of characters is a list of ranges
of code points in rising order; a look-up stops at the first range that ends at or above the code
point.
-/

namespace Scripting.Text

/-! ## Sets of code points -/

/-- Inclusive ranges of code points, disjoint and in rising order. -/
abbrev Ranges := List (Nat × Nat)

/-- Does one of the ranges hold the code point? -/
def Ranges.contains (n : Nat) : Ranges → Bool
  | [] => false
  | (first, last) :: rest => if n ≤ last then first ≤ n else contains n rest

/-! ## Blanks

The scanner itself skips only the space, the tab and the carriage return. -/

/-- The code points with the Unicode property `White_Space`. -/
def whiteSpace : Ranges := [
    (0x9, 0xd), (0x20, 0x20), (0x85, 0x85), (0xa0, 0xa0), (0x1680, 0x1680), (0x2000, 0x200a),
    (0x2028, 0x2029), (0x202f, 0x202f), (0x205f, 0x205f), (0x3000, 0x3000)]

/-- Is the character white space in the sense of Unicode? -/
def isBlank (c : Char) : Bool :=
  whiteSpace.contains c.toNat

/-- The characters of a text between the first and the last that is not blank. -/
def trim (s : String) : List Char :=
  ((s.toList.dropWhile isBlank).reverse.dropWhile isBlank).reverse

/-! ## Lines

A line ends before a line feed, or before a carriage return and a line feed. What follows the last
line feed is a line too, unless it is empty. -/

/-- The lines of a text. -/
def lines : List Char → List (List Char)
  | [] => []
  | '\n' :: rest => [] :: lines rest
  | '\r' :: '\n' :: rest => [] :: lines rest
  | c :: rest =>
    match lines rest with
    | [] => [[c]]
    | line :: more => (c :: line) :: more

end Scripting.Text

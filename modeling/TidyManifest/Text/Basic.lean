/-!
# Characters and digits

A property of characters is given as a list of inclusive ranges of code points, in ascending
order.  The tables are those of Unicode 17.0.  White space is the property White_Space: six controls,
the blank, and the spaces and separators beyond ASCII.

Numbers are written with the ten ASCII digits.
-/

namespace TidyManifest.Text

/-- Whether a code point lies in one of the ranges. -/
def inRanges (ranges : List (Nat × Nat)) (code : Nat) : Bool :=
  ranges.any fun (first, last) => first ≤ code && code ≤ last

/-- The code points with the property White_Space, as inclusive ranges in ascending order. -/
def blankRanges : List (Nat × Nat) :=
  [(0x09, 0x0D), (0x20, 0x20), (0x85, 0x85), (0xA0, 0xA0), (0x1680, 0x1680), (0x2000, 0x200A),
   (0x2028, 0x2029), (0x202F, 0x202F), (0x205F, 0x205F), (0x3000, 0x3000)]

/-- Whether a character is white space. -/
def isBlank (c : Char) : Bool :=
  inRanges blankRanges c.toNat

/-- Drop white space from the end. -/
def trimEnd (cs : List Char) : List Char :=
  (cs.reverse.dropWhile isBlank).reverse

/-- Drop every copy of one character from both ends. -/
def trimBoth (edge : Char) (cs : List Char) : List Char :=
  (((cs.dropWhile (· == edge)).reverse).dropWhile (· == edge)).reverse

/-- The number that decimal digits stand for. -/
def ofDigits (digits : List Char) : Nat :=
  digits.foldl (fun n c => 10 * n + (c.toNat - '0'.toNat)) 0

/-- The number that a text of decimal digits stands for; nothing if it is empty or has any other
character. -/
def natOfDigits? (cs : List Char) : Option Nat :=
  if cs.isEmpty || !cs.all Char.isDigit then none else some (ofDigits cs)

end TidyManifest.Text

/-!
# White space

The characters that Unicode gives the property `White_Space`, and the removal of such characters
from both ends of a text.
-/

namespace Reckoner

/-- The first and last code points of the ranges of white space. -/
def whiteSpaceRanges : List (Nat × Nat) :=
  [(0x0009, 0x000d), (0x0020, 0x0020), (0x0085, 0x0085), (0x00a0, 0x00a0), (0x1680, 0x1680),
    (0x2000, 0x200a), (0x2028, 0x2029), (0x202f, 0x202f), (0x205f, 0x205f), (0x3000, 0x3000)]

/-- Whether a character is white space. -/
def isWhiteSpace (c : Char) : Bool :=
  whiteSpaceRanges.any fun (first, last) => first ≤ c.toNat && c.toNat ≤ last

/-- A text without the white space at its ends. -/
def trimmed (text : String) : String :=
  let start := text.toList.dropWhile isWhiteSpace
  String.ofList (start.reverse.dropWhile isWhiteSpace).reverse

end Reckoner

/-!
# Blank characters and plain words

Words of a closed vocabulary are read without regard to surrounding blanks and to the case of
ASCII letters.

* `isBlank`: the White_Space property.
* `trim`: a text without its outer blanks.
* `foldAscii`, `sameWord`: comparison up to the case of `A` to `Z`.
-/

namespace CodeGraph.Text

/-- The code points with the White_Space property, as ascending ranges. -/
def blankRanges : List (Nat × Nat) :=
  [(0x9, 0xd), (0x20, 0x20), (0x85, 0x85), (0xa0, 0xa0), (0x1680, 0x1680), (0x2000, 0x200a),
   (0x2028, 0x2029), (0x202f, 0x202f), (0x205f, 0x205f), (0x3000, 0x3000)]

/-- Whether a code point lies in one of the given closed ranges. -/
def inRanges (ranges : List (Nat × Nat)) (c : Char) : Bool :=
  ranges.any fun r => r.1 ≤ c.toNat && c.toNat ≤ r.2

/-- A blank is a character with the White_Space property. -/
def isBlank (c : Char) : Bool := inRanges blankRanges c

/-- A list of characters without the blanks at its end. -/
def trimEnd (cs : List Char) : List Char := (cs.reverse.dropWhile isBlank).reverse

/-- A text without the blanks at either end. -/
def trim (s : String) : String := String.ofList (trimEnd (s.toList.dropWhile isBlank))

/-- A text with the letters `A` to `Z` in lower case and all else as it is. -/
def foldAscii (s : String) : String := String.ofList (s.toList.map Char.toLower)

/-- Two words are the same if they differ at most in the case of ASCII letters. -/
def sameWord (a b : String) : Bool := foldAscii a == foldAscii b

end CodeGraph.Text

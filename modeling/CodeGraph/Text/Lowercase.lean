import CodeGraph.Text.Blank
import CodeGraph.Text.CaseTable

/-!
# Full lower-casing

A text is lower-cased character by character, with two rules beyond the one-to-one table: the
capital I with a dot becomes two characters, and a capital sigma becomes a final sigma where it
ends a word.

* `lowerChar`: the lower-case form of one character, in isolation.
* `endsWord`: whether a sigma between two contexts ends a word.
* `lowercase`: the lower-case form of a text.
-/

namespace CodeGraph.Text

/-- Whether a run of the case table covers a code point. -/
def CaseRange.covers (r : CaseRange) (n : Nat) : Bool :=
  r.first ≤ n && n ≤ r.last && (n - r.first) % r.step == 0

/-- The lower-case form of a character outside any context. -/
def lowerChar (c : Char) : List Char :=
  if c.toNat < 0x80 then [c.toLower]
  else if c.toNat = 0x130 then ['i', Char.ofNat 0x307]
  else match lowerRanges.find? (·.covers c.toNat) with
    | some r => [Char.ofNat (r.shift + c.toNat).toNat]
    | none => [c]

/-- Whether the first character that is not case-ignorable exists and is cased. -/
def startsCased (context : List Char) : Bool :=
  match context.dropWhile (inRanges ignorableRanges) with
  | [] => false
  | c :: _ => inRanges casedRanges c

/-- A sigma ends a word if a cased letter stands before it and none after it, case-ignorable
characters aside. The text before it is given in reverse. -/
def endsWord (before after : List Char) : Bool :=
  startsCased before && !startsCased after

/-- Lower-cases the text that follows `before`, which is given in reverse. -/
def lowercaseFrom (before : List Char) : List Char → List Char
  | [] => []
  | c :: after =>
    let image :=
      if c = 'Σ' then [if endsWord before after then 'ς' else 'σ'] else lowerChar c
    image ++ lowercaseFrom (c :: before) after

/-- The lower-case form of a text. -/
def lowercase (s : String) : String := String.ofList (lowercaseFrom [] s.toList)

end CodeGraph.Text

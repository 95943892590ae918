/-!
# Patterns of bytes

A pattern describes texts by their bytes. A text is matched byte by byte against the set of what may
still follow, so the work grows with the pattern and the text and never doubles.

* `Pattern`: single bytes of a set, sequences, choices and repetitions.
* `Pattern.next`: what may follow after a byte.
* `Pattern.accepts`: whether a whole text fits.
-/

namespace CodeGraph

/-- A set of bytes: those in one of the ranges, or those in none of them. -/
structure ByteSet where
  negated : Bool := false
  ranges : List (UInt8 × UInt8)
  deriving DecidableEq, Repr

/-- Whether a byte is in the set. -/
def ByteSet.contains (s : ByteSet) (b : UInt8) : Bool :=
  (s.ranges.any fun r => r.1 ≤ b && b ≤ r.2) != s.negated

/-- A description of texts. -/
inductive Pattern where
  /-- The empty text. -/
  | empty
  /-- One byte of a set. -/
  | one (set : ByteSet)
  | seq (first second : Pattern)
  | alt (left right : Pattern)
  /-- Any number of texts of a pattern, one after another. -/
  | many (body : Pattern)
  deriving DecidableEq, Repr

namespace Pattern

/-- Any byte. -/
def any : Pattern := one ⟨true, []⟩

/-- One given byte. -/
def byte (b : UInt8) : Pattern := one ⟨false, [(b, b)]⟩

/-- Any byte but one. -/
def anyBut (b : UInt8) : Pattern := one ⟨true, [(b, b)]⟩

/-- Patterns one after another. -/
def concat (ps : List Pattern) : Pattern := ps.foldr seq empty

/-- Whether the empty text fits. -/
def acceptsEmpty : Pattern → Bool
  | empty => true
  | one _ => false
  | seq p q => p.acceptsEmpty && q.acceptsEmpty
  | alt p q => p.acceptsEmpty || q.acceptsEmpty
  | many _ => true

/-- The patterns one of which the rest must fit after a byte. -/
def next (b : UInt8) : Pattern → List Pattern
  | empty => []
  | one set => if set.contains b then [empty] else []
  | seq p q => (p.next b).map (seq · q) ++ (if p.acceptsEmpty then q.next b else [])
  | alt p q => p.next b ++ q.next b
  | many p => (p.next b).map (seq · (many p))

/-- The patterns one of which the rest must fit, after a byte, if one of the given ones was due. -/
def advance (ps : List Pattern) (b : UInt8) : List Pattern := (ps.flatMap (next b)).eraseDups

/-- Whether a whole text fits. -/
def accepts (p : Pattern) (text : String) : Bool :=
  (text.toUTF8.toList.foldl advance [p]).any acceptsEmpty

end Pattern

end CodeGraph

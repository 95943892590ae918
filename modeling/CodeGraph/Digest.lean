/-!
# Keyed digest of a byte string

SipHash with one compression round and three finalization rounds, under the zero key. Identifiers
of declarations and relationships are made from it.

* `State`, `State.round`: the four words and their mixing.
* `digest`: the digest of a list of bytes.
* `littleEndian`, `hex16`: the byte and digit forms of numbers used around it.
-/

namespace CodeGraph.Digest

/-- The four words of the internal state. -/
structure State where
  v0 : UInt64
  v1 : UInt64
  v2 : UInt64
  v3 : UInt64

/-- The state before any input, for the zero key. -/
def State.initial : State :=
  ⟨0x736f6d6570736575, 0x646f72616e646f6d, 0x6c7967656e657261, 0x7465646279746573⟩

/-- Rotates a word to the left. -/
def rotate (x : UInt64) (n : UInt64) : UInt64 := (x <<< n) ||| (x >>> (64 - n))

/-- One mixing round. -/
def State.round (s : State) : State :=
  let v0 := s.v0 + s.v1
  let v2 := s.v2 + s.v3
  let v1 := rotate s.v1 13 ^^^ v0
  let v3 := rotate s.v3 16 ^^^ v2
  let v0 := rotate v0 32
  let v2 := v2 + v1
  let v0 := v0 + v3
  let v1 := rotate v1 17 ^^^ v2
  let v3 := rotate v3 21 ^^^ v0
  let v2 := rotate v2 32
  ⟨v0, v1, v2, v3⟩

/-- Mixes one word of input in. -/
def State.absorb (s : State) (m : UInt64) : State :=
  let t := State.round { s with v3 := s.v3 ^^^ m }
  { t with v0 := t.v0 ^^^ m }

/-- The digest of a finished state. -/
def State.finish (s : State) : UInt64 :=
  let t := (({ s with v2 := s.v2 ^^^ 0xff } : State).round).round.round
  t.v0 ^^^ t.v1 ^^^ t.v2 ^^^ t.v3

/-- The number that bytes spell, least significant first. -/
def word : List UInt8 → UInt64
  | [] => 0
  | b :: rest => b.toUInt64 ||| (word rest <<< 8)

/-- Absorbs whole words, and then the rest together with the total length. -/
def absorbAll (length : Nat) : State → List UInt8 → State
  | s, b0 :: b1 :: b2 :: b3 :: b4 :: b5 :: b6 :: b7 :: rest =>
    absorbAll length (s.absorb (word [b0, b1, b2, b3, b4, b5, b6, b7])) rest
  | s, tail => s.absorb (word tail ||| (UInt64.ofNat length <<< 56))

/-- The digest of a list of bytes. -/
def digest (bytes : List UInt8) : UInt64 :=
  (absorbAll bytes.length State.initial bytes).finish

/-- The lowest `count` bytes of a number, least significant first. -/
def littleEndian : (count : Nat) → Nat → List UInt8
  | 0, _ => []
  | count + 1, n => UInt8.ofNat n :: littleEndian count (n / 256)

/-- A word as sixteen lower-case hexadecimal digits. -/
def hex16 (n : UInt64) : String :=
  let digits := Nat.toDigits 16 n.toNat
  String.ofList (List.replicate (16 - digits.length) '0' ++ digits)

/-- The bytes of a text, followed by a byte that no text holds. -/
def terminated (s : String) : List UInt8 := s.toUTF8.toList ++ [0xff]

end CodeGraph.Digest

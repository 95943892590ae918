/-!
# Reading JSON

A text is read into a tree that keeps what a later decision may need: a string whose escapes
denote no text is still a string of the right form, and a number keeps how it was written. A value
that nobody asks for is then only held to its form.

* `Parsed`: the tree.
* `Json.parse?`: the tree of a text, if the text is one value.
-/

namespace CodeGraph

/-- A number as it was written. -/
structure JsonNumber where
  negative : Bool
  whole : Nat
  /-- The digits after the point; empty if there is no point. -/
  fraction : List Char
  exponent : Option Int
  deriving DecidableEq, Repr

/-- A JSON text as a tree. A string is `none` if one of its escapes is half of a surrogate pair. -/
inductive Parsed where
  | null
  | bool (value : Bool)
  | number (value : JsonNumber)
  | string (value : Option String)
  | array (items : List Parsed)
  | object (members : List (Option String × Parsed))
  deriving Inhabited, Repr

namespace Json

/-! ## Blanks, digits and escapes -/

/-- The blanks of the format. -/
def isSpace (c : Char) : Bool := c == ' ' || c == '\n' || c == '\t' || c == '\r'

/-- The text from its first character that is no blank. -/
def skipBlanks (cs : List Char) : List Char := cs.dropWhile isSpace

/-- The value of a hexadecimal digit. -/
def hexValue? (c : Char) : Option Nat :=
  if '0' ≤ c ∧ c ≤ '9' then some (c.toNat - '0'.toNat)
  else if 'a' ≤ c ∧ c ≤ 'f' then some (c.toNat - 'a'.toNat + 10)
  else if 'A' ≤ c ∧ c ≤ 'F' then some (c.toNat - 'A'.toNat + 10)
  else none

/-- The number that four hexadecimal digits spell. -/
def hex4? (a b c d : Char) : Option Nat := do
  let a ← hexValue? a
  let b ← hexValue? b
  let c ← hexValue? c
  let d ← hexValue? d
  some (((a * 16 + b) * 16 + c) * 16 + d)

/-- The first half of a surrogate pair. -/
def isHigh (n : Nat) : Bool := 0xd800 ≤ n && n < 0xdc00

/-- The second half of a surrogate pair. -/
def isLow (n : Nat) : Bool := 0xdc00 ≤ n && n < 0xe000

/-- The character that a surrogate pair stands for. -/
def pairChar (high low : Nat) : Char :=
  Char.ofNat (0x10000 + (high - 0xd800) * 0x400 + (low - 0xdc00))

/-- The character of a one-letter escape. -/
def escaped? : Char → Option Char
  | '"' => some '"'
  | '\\' => some '\\'
  | '/' => some '/'
  | 'b' => some (Char.ofNat 8)
  | 'f' => some (Char.ofNat 12)
  | 'n' => some '\n'
  | 'r' => some '\r'
  | 't' => some '\t'
  | _ => none

/-- A piece of a string literal: a character, or the number of a four-digit escape. -/
inductive Piece where
  | char (c : Char)
  | code (n : Nat)
  deriving DecidableEq, Repr

/-- Reads the pieces of a string literal after its opening quote. -/
def pieces : List Char → Option (List Piece × List Char)
  | [] => none
  | '"' :: rest => some ([], rest)
  | '\\' :: 'u' :: a :: b :: c :: d :: rest =>
    match hex4? a b c d, pieces rest with
    | some n, some (ps, rest) => some (.code n :: ps, rest)
    | _, _ => none
  | '\\' :: c :: rest =>
    match escaped? c, pieces rest with
    | some e, some (ps, rest) => some (.char e :: ps, rest)
    | _, _ => none
  | c :: rest =>
    if c.toNat < 32 then none
    else
      match pieces rest with
      | some (ps, rest) => some (.char c :: ps, rest)
      | none => none

/-- The text that pieces spell after the first half of a surrogate pair, if one is open. The two
halves of a pair must stand together. -/
def joinPieces : (pending : Option Nat) → List Piece → Option (List Char)
  | none, [] => some []
  | some _, [] => none
  | none, .char c :: rest => (joinPieces none rest).map (c :: ·)
  | some _, .char _ :: _ => none
  | some high, .code n :: rest =>
    if isLow n then (joinPieces none rest).map (pairChar high n :: ·) else none
  | none, .code n :: rest =>
    if isHigh n then joinPieces (some n) rest
    else if isLow n then none
    else (joinPieces none rest).map (Char.ofNat n :: ·)

/-- Reads the rest of a string literal as a text. -/
def stringRest (cs : List Char) : Option (Option String × List Char) :=
  (pieces cs).map fun r => ((joinPieces none r.1).map String.ofList, r.2)

/-! ## Numbers -/

/-- A decimal digit. -/
def isDigit (c : Char) : Bool := '0' ≤ c && c ≤ '9'

/-- The number that decimal digits spell. -/
def digitsValue (ds : List Char) : Nat := ds.foldl (fun n c => 10 * n + (c.toNat - '0'.toNat)) 0

/-- Reads the integer part of a number: no digits but `0` may follow a leading zero. -/
def wholePart (cs : List Char) : Option (Nat × List Char) :=
  match cs.takeWhile isDigit with
  | [] => none
  | '0' :: _ :: _ => none
  | ds => some (digitsValue ds, cs.dropWhile isDigit)

/-- Reads the digits after a point, if there is one. -/
def fractionPart : List Char → Option (List Char × List Char)
  | '.' :: rest =>
    match rest.takeWhile isDigit with
    | [] => none
    | ds => some (ds, rest.dropWhile isDigit)
  | cs => some ([], cs)

/-- Reads the sign of an exponent: whether it is negative, and what follows. -/
def exponentSign : List Char → Bool × List Char
  | '-' :: rest => (true, rest)
  | '+' :: rest => (false, rest)
  | cs => (false, cs)

/-- Reads an exponent, if there is one. -/
def exponentPart : List Char → Option (Option Int × List Char)
  | c :: rest =>
    if c = 'e' ∨ c = 'E' then
      let (negative, body) := exponentSign rest
      match body.takeWhile isDigit with
      | [] => none
      | ds =>
        let n : Int := digitsValue ds
        some (some (if negative then -n else n), body.dropWhile isDigit)
    else some (none, c :: rest)
  | [] => some (none, [])

/-- Reads the digits, point and exponent of a number. -/
def unsigned (negative : Bool) (cs : List Char) : Option (JsonNumber × List Char) := do
  let (whole, cs) ← wholePart cs
  let (fraction, cs) ← fractionPart cs
  let (exponent, cs) ← exponentPart cs
  some (⟨negative, whole, fraction, exponent⟩, cs)

/-- Reads a number. -/
def number : List Char → Option (JsonNumber × List Char)
  | '-' :: rest => unsigned true rest
  | cs => unsigned false cs

/-! ## Values -/

mutual

/-- Reads one value; `fuel` bounds the depth of the reading. -/
def readValue : (fuel : Nat) → List Char → Option (Parsed × List Char)
  | 0, _ => none
  | fuel + 1, cs =>
    match skipBlanks cs with
    | 'n' :: 'u' :: 'l' :: 'l' :: rest => some (.null, rest)
    | 't' :: 'r' :: 'u' :: 'e' :: rest => some (.bool true, rest)
    | 'f' :: 'a' :: 'l' :: 's' :: 'e' :: rest => some (.bool false, rest)
    | '"' :: rest => (stringRest rest).map fun r => (.string r.1, r.2)
    | '[' :: rest =>
      match skipBlanks rest with
      | ']' :: rest => some (.array [], rest)
      | rest => (readItems fuel rest).map fun r => (.array r.1, r.2)
    | '{' :: rest =>
      match skipBlanks rest with
      | '}' :: rest => some (.object [], rest)
      | rest => (readMembers fuel rest).map fun r => (.object r.1, r.2)
    | cs => (number cs).map fun r => (.number r.1, r.2)

/-- Reads the items of a list up to its closing bracket. -/
def readItems : (fuel : Nat) → List Char → Option (List Parsed × List Char)
  | 0, _ => none
  | fuel + 1, cs =>
    match readValue fuel cs with
    | none => none
    | some (item, rest) =>
      match skipBlanks rest with
      | ',' :: rest => (readItems fuel rest).map fun r => (item :: r.1, r.2)
      | ']' :: rest => some ([item], rest)
      | _ => none

/-- Reads the members of an object up to its closing brace. -/
def readMembers : (fuel : Nat) → List Char → Option (List (Option String × Parsed) × List Char)
  | 0, _ => none
  | fuel + 1, cs =>
    match skipBlanks cs with
    | '"' :: rest =>
      match stringRest rest with
      | none => none
      | some (key, rest) =>
        match skipBlanks rest with
        | ':' :: rest =>
          match readValue fuel rest with
          | none => none
          | some (value, rest) =>
            match skipBlanks rest with
            | ',' :: rest => (readMembers fuel rest).map fun r => ((key, value) :: r.1, r.2)
            | '}' :: rest => some ([(key, value)], rest)
            | _ => none
        | _ => none
    | _ => none

end

/-- The tree of a text that is one value with blanks around it. -/
def parse? (text : String) : Option Parsed :=
  let cs := text.toList
  match readValue (2 * cs.length + 2) cs with
  | some (value, rest) => if (skipBlanks rest).isEmpty then some value else none
  | none => none

end Json

end CodeGraph

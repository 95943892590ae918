import CodeGraph.Json.Decode

/-!
# TOML keys, strings, numbers and times

Each reader takes what it wants from the front of a text and gives back the rest.

* `Toml.Read.bareKey`, `Toml.Read.basicString`, `Toml.Read.literalString`: the forms of a key.
* `Toml.Read.string`: the four forms of a string.
* `Toml.Read.integer`, `Toml.Read.fraction`: numbers; an integer must fit into 64 bits, and a fraction may not
  be too large for a double.
* `Toml.Read.dateTime`: dates and times of the calendar.
-/

namespace CodeGraph.Toml.Read

/-! ## Characters -/

/-- A blank inside a line. -/
def isSpace (c : Char) : Bool := c == ' ' || c == '\t'

/-- A character that may stand in a comment or a string: no control character but the tab. -/
def isPlain (c : Char) : Bool := c == '\t' || (c.toNat ≥ 0x20 && c.toNat != 0x7f)

/-- The text after the blanks at its front. -/
def skipSpace (cs : List Char) : List Char := cs.dropWhile isSpace

/-- Takes a line break. -/
def newline : List Char → Option (List Char)
  | '\n' :: rest => some rest
  | '\r' :: '\n' :: rest => some rest
  | _ => none

/-- Takes an optional line break. -/
def optionalNewline (cs : List Char) : List Char := (newline cs).getD cs

/-- The text after a comment, if one stands at its front. -/
def skipComment : List Char → List Char
  | '#' :: rest => rest.dropWhile isPlain
  | cs => cs

/-- Takes the end of a line: blanks, a comment, and a line break or the end of the text. -/
def lineEnd (cs : List Char) : Option (List Char) :=
  match skipComment (skipSpace cs) with
  | [] => some []
  | cs => newline cs

/-- A character of a bare key. -/
def isBare (c : Char) : Bool := c.isAlphanum || c == '-' || c == '_'

/-- Reads a bare key. -/
def bareKey (cs : List Char) : Option (String × List Char) :=
  match cs.takeWhile isBare with
  | [] => none
  | key => some (String.ofList key, cs.dropWhile isBare)

/-! ## Strings -/

/-- The character with a number, if there is one. -/
def scalar? (n : Nat) : Option Char := if n.isValidChar then some (Char.ofNat n) else none

/-- The number that hexadecimal digits spell. -/
def hexNumber? (digits : List Char) : Option Nat :=
  digits.foldlM (fun n c => (Json.hexValue? c).map (16 * n + ·)) 0

/-- The character of a one-letter escape. -/
def escaped? : Char → Option Char
  | 'b' => some (Char.ofNat 8)
  | 't' => some '\t'
  | 'n' => some '\n'
  | 'f' => some (Char.ofNat 12)
  | 'r' => some '\r'
  | '"' => some '"'
  | '\\' => some '\\'
  | _ => none

/-- Reads what follows the backslash of an escape. -/
def escape : List Char → Option (Char × List Char)
  | 'u' :: a :: b :: c :: d :: rest =>
    ((hexNumber? [a, b, c, d]).bind scalar?).map fun e => (e, rest)
  | 'U' :: a :: b :: c :: d :: e :: f :: g :: h :: rest =>
    ((hexNumber? [a, b, c, d, e, f, g, h]).bind scalar?).map fun e => (e, rest)
  | c :: rest => (escaped? c).map fun e => (e, rest)
  | [] => none

/-- The text from the first character that is neither a blank nor a line break. -/
def skipLines : (fuel : Nat) → List Char → List Char
  | 0, cs => cs
  | fuel + 1, cs =>
    match newline (skipSpace cs) with
    | some rest => skipLines fuel rest
    | none => skipSpace cs

/-- Reads a string in double quotes after its opening quote; `fuel` bounds its length. -/
def basicRest : (fuel : Nat) → List Char → Option (List Char × List Char)
  | 0, _ => none
  | _ + 1, [] => none
  | _ + 1, '"' :: rest => some ([], rest)
  | fuel + 1, '\\' :: rest => do
    let (e, rest) ← escape rest
    let (chars, rest) ← basicRest fuel rest
    some (e :: chars, rest)
  | fuel + 1, c :: rest =>
    if isPlain c then (basicRest fuel rest).map fun r => (c :: r.1, r.2) else none

/-- Reads a string in double quotes. -/
def basicString : List Char → Option (String × List Char)
  | '"' :: rest => (basicRest (rest.length + 1) rest).map fun r => (String.ofList r.1, r.2)
  | _ => none

/-- Reads a string in single quotes, which has no escapes. -/
def literalString : List Char → Option (String × List Char)
  | '\'' :: rest =>
    match rest.dropWhile fun c => isPlain c && c != '\'' with
    | '\'' :: after => some (String.ofList (rest.takeWhile fun c => isPlain c && c != '\''), after)
    | _ => none
  | _ => none

/-- The quotes that stand at the front of a text: those that belong to a string of several lines,
and the text after its closing quotes, if they close it. Up to two quotes may stand before the three
that close it. -/
def closing (quote : Char) (cs : List Char) : List Char × Option (List Char) :=
  let quotes := cs.takeWhile (· == quote)
  if quotes.length < 3 then (quotes, none)
  else
    let taken := min quotes.length 5
    (List.replicate (taken - 3) quote, some (cs.drop taken))

/-- Reads a string of several lines in double quotes after its opening quotes. A backslash at the end
of a line takes away the line break and the blanks after it. -/
def basicLines : (fuel : Nat) → List Char → Option (List Char × List Char)
  | 0, _ => none
  | _ + 1, [] => none
  | fuel + 1, '"' :: rest =>
    match closing '"' ('"' :: rest) with
    | (quotes, some after) => some (quotes, after)
    | (quotes, none) =>
      (basicLines fuel (rest.drop (quotes.length - 1))).map fun r => (quotes ++ r.1, r.2)
  | fuel + 1, '\\' :: rest =>
    match newline (skipSpace rest) with
    | some after => basicLines fuel (skipLines (after.length + 1) after)
    | none => do
      let (e, rest) ← escape rest
      let (chars, rest) ← basicLines fuel rest
      some (e :: chars, rest)
  | fuel + 1, c :: rest =>
    match newline (c :: rest) with
    | some after => (basicLines fuel after).map fun r => ('\n' :: r.1, r.2)
    | none => if isPlain c then (basicLines fuel rest).map fun r => (c :: r.1, r.2) else none

/-- Reads a string of several lines in single quotes after its opening quotes. -/
def literalLines : (fuel : Nat) → List Char → Option (List Char × List Char)
  | 0, _ => none
  | _ + 1, [] => none
  | fuel + 1, '\'' :: rest =>
    match closing '\'' ('\'' :: rest) with
    | (quotes, some after) => some (quotes, after)
    | (quotes, none) =>
      (literalLines fuel (rest.drop (quotes.length - 1))).map fun r => (quotes ++ r.1, r.2)
  | fuel + 1, c :: rest =>
    match newline (c :: rest) with
    | some after => (literalLines fuel after).map fun r => ('\n' :: r.1, r.2)
    | none => if isPlain c then (literalLines fuel rest).map fun r => (c :: r.1, r.2) else none

/-- Reads a string of any of the four forms. A line break right after three opening quotes is not
part of the string. -/
def string (cs : List Char) : Option (String × List Char) :=
  match cs with
  | '"' :: '"' :: '"' :: rest =>
    (basicLines (rest.length + 1) (optionalNewline rest)).map fun r => (String.ofList r.1, r.2)
  | '\'' :: '\'' :: '\'' :: rest =>
    (literalLines (rest.length + 1) (optionalNewline rest)).map fun r => (String.ofList r.1, r.2)
  | '"' :: _ => basicString cs
  | _ => literalString cs

/-! ## Numbers -/

/-- Reads digits of a class, with single underscores between them. -/
def digitRun (isDigit : Char → Bool) : List Char → Option (List Char × List Char)
  | c :: rest =>
    if isDigit c then
      match rest with
      | '_' :: d :: more =>
        if isDigit d then (digitRun isDigit (d :: more)).map fun r => (c :: r.1, r.2) else none
      | '_' :: [] => none
      | d :: more =>
        if isDigit d then (digitRun isDigit (d :: more)).map fun r => (c :: r.1, r.2)
        else some ([c], d :: more)
      | [] => some ([c], [])
    else none
  | [] => none

/-- Reads an optional sign: whether it is a minus. -/
def sign : List Char → Bool × List Char
  | '-' :: rest => (true, rest)
  | '+' :: rest => (false, rest)
  | cs => (false, cs)

/-- Reads the digits of a decimal integer: a leading zero stands alone. -/
def decimalDigits : List Char → Option (List Char × List Char)
  | '0' :: rest => some (['0'], rest)
  | cs => digitRun Json.isDigit cs

/-- A hexadecimal digit. -/
def isHex (c : Char) : Bool := (Json.hexValue? c).isSome

/-- The number that digits spell in a base. -/
def numberOf (base : Nat) (digits : List Char) : Nat :=
  digits.foldl (fun n c => base * n + (Json.hexValue? c).getD 0) 0

/-- An integer of 64 bits. -/
def inRange (n : Int) : Bool := -0x8000000000000000 ≤ n && n < 0x8000000000000000

/-- Reads the digits of an unsigned integer in a base. -/
def based (base : Nat) (isDigit : Char → Bool) (cs : List Char) : Option (Int × List Char) := do
  let (digits, rest) ← digitRun isDigit cs
  let n : Int := numberOf base digits
  if inRange n then some (n, rest) else none

/-- Reads an integer. -/
def integer : List Char → Option (Int × List Char)
  | '0' :: 'x' :: rest => based 16 isHex rest
  | '0' :: 'o' :: rest => based 8 (fun c => '0' ≤ c && c ≤ '7') rest
  | '0' :: 'b' :: rest => based 2 (fun c => c == '0' || c == '1') rest
  | cs => do
    let (negative, body) := sign cs
    let (digits, rest) ← decimalDigits body
    let n : Int := numberOf 10 digits
    let n := if negative then -n else n
    if inRange n then some (n, rest) else none

/-- Reads an exponent, if there is one. -/
def exponent : List Char → Option (Option Int × List Char)
  | c :: rest =>
    if c = 'e' ∨ c = 'E' then do
      let (negative, body) := sign rest
      let (digits, rest) ← digitRun Json.isDigit body
      let n : Int := numberOf 10 digits
      some (some (if negative then -n else n), rest)
    else some (none, c :: rest)
  | [] => some (none, [])

/-- Reads a point and the digits after it, if it is there. -/
def places : List Char → Option (List Char × List Char)
  | '.' :: rest => digitRun Json.isDigit rest
  | cs => some ([], cs)

/-- Reads `inf` or `nan` with an optional sign. -/
def special (cs : List Char) : Option (List Char) :=
  match (sign cs).2 with
  | 'i' :: 'n' :: 'f' :: rest => some rest
  | 'n' :: 'a' :: 'n' :: rest => some rest
  | _ => none

/-- Reads a number with a point or an exponent. One above zero must fit into a double. -/
def decimal (cs : List Char) : Option (List Char) := do
  let (negative, body) := sign cs
  let (digits, rest) ← decimalDigits body
  let (fraction, rest) ← places rest
  let (power, rest) ← exponent rest
  if fraction.isEmpty && power.isNone then none
  else
    let n : JsonNumber := ⟨negative, numberOf 10 digits, fraction, power⟩
    if negative || n.isFinite then some rest else none

/-- The characters that were read from the front of a text. -/
def taken (cs rest : List Char) : String := String.ofList (cs.take (cs.length - rest.length))

/-- Reads a fraction, kept as it was written. -/
def fraction (cs : List Char) : Option (String × List Char) :=
  ((decimal cs).or (special cs)).map fun rest => (taken cs rest, rest)

/-! ## Dates and times -/

/-- Reads a number of so many digits between two bounds. -/
def field (digits low high : Nat) (cs : List Char) : Option (Nat × List Char) :=
  let ds := cs.take digits
  if ds.length = digits ∧ ds.all Json.isDigit then
    let n := numberOf 10 ds
    if low ≤ n ∧ n ≤ high then some (n, cs.drop digits) else none
  else none

/-- Takes a character. -/
def expect (c : Char) : List Char → Option (List Char)
  | d :: rest => if c = d then some rest else none
  | [] => none

/-- How many days a month has. -/
def daysIn (year month : Nat) : Nat :=
  if month = 2 then
    if year % 4 = 0 ∧ (year % 100 ≠ 0 ∨ year % 400 = 0) then 29 else 28
  else if month = 4 ∨ month = 6 ∨ month = 9 ∨ month = 11 then 30
  else 31

/-- Takes a date. -/
def date (cs : List Char) : Option (List Char) := do
  let (year, cs) ← field 4 0 9999 cs
  let cs ← expect '-' cs
  let (month, cs) ← field 2 1 12 cs
  let cs ← expect '-' cs
  let (_, cs) ← field 2 1 (daysIn year month) cs
  some cs

/-- Takes the fraction of a second, if there is one. -/
def secondPlaces : List Char → List Char
  | '.' :: c :: rest => if Json.isDigit c then rest.dropWhile Json.isDigit else '.' :: c :: rest
  | cs => cs

/-- Takes a time of the day; a minute may have a leap second. -/
def timeOfDay (cs : List Char) : Option (List Char) := do
  let (_, cs) ← field 2 0 23 cs
  let cs ← expect ':' cs
  let (_, cs) ← field 2 0 59 cs
  let cs ← expect ':' cs
  let (_, cs) ← field 2 0 60 cs
  some (secondPlaces cs)

/-- Takes the offset of a time zone, if there is one. -/
def offset : List Char → Option (List Char)
  | 'Z' :: rest => some rest
  | 'z' :: rest => some rest
  | c :: rest =>
    if c = '+' ∨ c = '-' then do
      let (_, cs) ← field 2 0 23 rest
      let cs ← expect ':' cs
      let (_, cs) ← field 2 0 59 cs
      some cs
    else some (c :: rest)
  | [] => some []

/-- Takes a time of the day after a date, if there is one. -/
def timePart : List Char → Option (List Char)
  | c :: rest =>
    if c = 'T' ∨ c = 't' ∨ c = ' ' then
      match timeOfDay rest with
      | some rest => offset rest
      | none => some (c :: rest)
    else some (c :: rest)
  | [] => some []

/-- Reads a date, a time of the day or both, kept as they were written. -/
def dateTime (cs : List Char) : Option (String × List Char) :=
  (((date cs).bind timePart).or (timeOfDay cs)).map fun rest => (taken cs rest, rest)

end CodeGraph.Toml.Read

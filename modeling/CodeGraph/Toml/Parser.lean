import CodeGraph.Toml.Basic
import CodeGraph.Toml.Scalar

/-!
# Reading TOML

* `Toml.Read.value`: reads a value.
* `Toml.Read.line`: reads one line of a document into the table read so far.
* `Toml.parse?`: the table that a text describes.
-/

namespace CodeGraph.Toml.Read

/-- How many parts a dotted key may not reach, and how deep values may not nest. -/
def nestingLimit : Nat := 80

/-! ## Keys -/

/-- Reads one part of a key. -/
def simpleKey (cs : List Char) : Option (String × List Char) :=
  match cs with
  | '"' :: _ => basicString cs
  | '\'' :: _ => literalString cs
  | _ => bareKey cs

/-- Reads the parts of a key, divided by dots, with blanks around them; `fuel` bounds their number.
The last part comes by itself. -/
def keyParts : (fuel : Nat) → List Char → Option ((List String × String) × List Char)
  | 0, _ => none
  | fuel + 1, cs => do
    let (part, rest) ← simpleKey (skipSpace cs)
    match skipSpace rest with
    | '.' :: rest =>
      let ((path, last), rest) ← keyParts fuel rest
      some ((part :: path, last), rest)
    | rest => some (([], part), rest)

/-- Reads a key: the parts before the last, and the last. -/
def key (cs : List Char) : Option ((List String × String) × List Char) :=
  keyParts (nestingLimit - 1) cs

/-! ## Values -/

/-- The text from the first character that is no blank, line break or comment; `fuel` bounds the
number of lines. -/
def skipFiller : (fuel : Nat) → List Char → List Char
  | 0, cs => cs
  | fuel + 1, cs =>
    match skipComment (skipSpace cs) with
    | [] => []
    | c :: rest =>
      match newline (c :: rest) with
      | some rest => skipFiller fuel rest
      | none => c :: rest

/-- Reads a value that is no list and no table. -/
def plainValue (cs : List Char) : Option (Toml × List Char) :=
  match cs with
  | '"' :: _ => (string cs).map fun r => (.text r.1, r.2)
  | '\'' :: _ => (string cs).map fun r => (.text r.1, r.2)
  | 't' :: 'r' :: 'u' :: 'e' :: rest => some (.boolean true, rest)
  | 'f' :: 'a' :: 'l' :: 's' :: 'e' :: rest => some (.boolean false, rest)
  | _ =>
    match dateTime cs with
    | some (written, rest) => some (.time written, rest)
    | none =>
      match fraction cs with
      | some (written, rest) => some (.float written, rest)
      | none => (integer cs).map fun r => (.integer r.1, r.2)

mutual

/-- Reads a value at a depth of nesting; `fuel` bounds the reading. -/
def value : (fuel depth : Nat) → List Char → Option (Toml × List Char)
  | 0, _, _ => none
  | fuel + 1, depth, cs =>
    match cs with
    | '[' :: rest =>
      if depth + 1 < nestingLimit then
        (items fuel (depth + 1) (skipFiller cs.length rest)).map fun r => (.array r.1, r.2)
      else none
    | '{' :: rest =>
      if depth + 1 < nestingLimit then
        match skipSpace rest with
        | '}' :: rest => some (.inline [], rest)
        | rest => (members fuel (depth + 1) [] rest).map fun r => (.inline r.1, r.2)
      else none
    | cs => plainValue cs

/-- Reads the items of a list up to its closing bracket; a comma may stand after the last. -/
def items : (fuel depth : Nat) → List Char → Option (List Toml × List Char)
  | 0, _, _ => none
  | _ + 1, _, ']' :: rest => some ([], rest)
  | fuel + 1, depth, cs => do
    let (item, rest) ← value fuel depth cs
    match skipFiller rest.length rest with
    | ',' :: rest =>
      let (more, rest) ← items fuel depth (skipFiller rest.length rest)
      some (item :: more, rest)
    | ']' :: rest => some ([item], rest)
    | _ => none

/-- Reads the members of an inline table, after those read so far, up to its closing brace. -/
def members : (fuel depth : Nat) → Members → List Char → Option (Members × List Char)
  | 0, _, _, _ => none
  | fuel + 1, depth, ms, cs => do
    let ((path, last), rest) ← key cs
    let rest ← expect '=' rest
    let (item, rest) ← value fuel depth (skipSpace rest)
    let ms ← ms.insertDotted path last item
    match skipSpace rest with
    | ',' :: rest => members fuel depth ms rest
    | '}' :: rest => some (ms, rest)
    | _ => none

end

/-! ## Documents -/

/-- A document read so far: its table, and the header under which lines stand. -/
structure Document where
  root : Members := []
  header : List String := []

/-- Reads a header. -/
def headerLine (d : Document) (cs : List Char) : Option (Document × List Char) :=
  match cs with
  | '[' :: '[' :: rest => do
    let ((path, last), rest) ← key rest
    let rest ← (expect ']' rest).bind (expect ']')
    let root ← d.root.openItem path last
    some ({ root, header := path ++ [last] }, ← lineEnd rest)
  | '[' :: rest => do
    let ((path, last), rest) ← key rest
    let rest ← expect ']' rest
    let root ← d.root.openTable path last
    some ({ root, header := path ++ [last] }, ← lineEnd rest)
  | _ => none

/-- Reads a key with its value. -/
def memberLine (d : Document) (cs : List Char) : Option (Document × List Char) := do
  let ((path, last), rest) ← key cs
  let rest ← expect '=' rest
  let (item, rest) ← value (2 * rest.length + 2) 0 (skipSpace rest)
  let root ← d.root.insertUnder d.header path last item
  some ({ d with root }, ← lineEnd rest)

/-- Reads one line. -/
def line (d : Document) (cs : List Char) : Option (Document × List Char) :=
  match cs with
  | '#' :: _ => (lineEnd cs).map fun rest => (d, rest)
  | '[' :: _ => headerLine d cs
  | '\n' :: _ => (newline cs).map fun rest => (d, rest)
  | '\r' :: _ => (newline cs).map fun rest => (d, rest)
  | _ => memberLine d cs

/-- Reads the lines of a document; `fuel` bounds their number. -/
def lines : (fuel : Nat) → Document → List Char → Option Document
  | 0, _, _ => none
  | fuel + 1, d, cs =>
    match skipSpace cs with
    | [] => some d
    | cs =>
      match line d cs with
      | some (d, rest) => lines fuel d rest
      | none => none

/-- The text without a byte order mark at its front. -/
def withoutMark : List Char → List Char
  | c :: rest => if c.toNat = 0xfeff then rest else c :: rest
  | [] => []

end CodeGraph.Toml.Read

namespace CodeGraph

/-- The table that a text describes. -/
def Toml.parse? (text : String) : Option Members :=
  let cs := Toml.Read.withoutMark text.toList
  (Toml.Read.lines (cs.length + 1) {} cs).map (·.root)

end CodeGraph

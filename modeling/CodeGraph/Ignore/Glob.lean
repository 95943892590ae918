import CodeGraph.Ignore.Pattern

/-!
# Globs

Wildcard patterns for paths: `?` is any byte, `*` any bytes, `**` any directories, `[a-z]` a byte of
a class, `{a,b}` a choice, and a backslash takes away the meaning of what follows it.

* `GlobToken`, `Glob.parse?`: the tokens of a glob; there are none for an ill-formed one.
* `Glob.toPattern`: the pattern of bytes that a glob stands for.
-/

namespace CodeGraph

/-- How globs are read. -/
structure GlobOptions where
  /-- Whether `*` and `?` stop at a slash. -/
  stopAtSlash : Bool := false
  /-- Whether a bracket that is not closed stands for itself. -/
  keepOpenBracket : Bool := false
  deriving DecidableEq, Repr

/-- A piece of a glob. -/
inductive GlobToken where
  | literal (c : Char)
  | any
  | star
  /-- `**` and a slash in front: nothing, or any directories. -/
  | leading
  /-- A slash and `**` at the end: anything inside a directory. -/
  | trailing
  /-- `**` between slashes: one slash, or directories between two. -/
  | between
  | charClass (negated : Bool) (ranges : List (Char × Char))
  | choice (branches : List (List GlobToken))

namespace Glob

/-! ## Reading -/

/-- A glob read so far. The tokens of the branch that is being read come last first; `groups` holds,
for each open brace, the finished branches of its choice and the tokens before it. -/
structure Reader where
  options : GlobOptions
  current : List GlobToken := []
  groups : List (List (List GlobToken) × List GlobToken) := []
  /-- The last character that was read. -/
  previous : Option Char := none
  /-- Whether a bracket that is not closed was found. -/
  openBracket : Bool := false

/-- Adds a token, of which a character was the last. -/
def Reader.push (r : Reader) (token : GlobToken) (last : Char) : Reader :=
  { r with current := token :: r.current, previous := some last }

/-- Opens a choice. -/
def Reader.openGroup (r : Reader) : Reader :=
  { r with current := [], groups := ([], r.current) :: r.groups, previous := some '\x7b' }

/-- Closes a choice, if one is open. -/
def Reader.closeGroup (r : Reader) : Option Reader :=
  match r.groups with
  | [] => none
  | (branches, before) :: rest =>
    some { r with
      current := .choice (branches ++ [r.current.reverse]) :: before
      groups := rest
      previous := some '\x7d' }

/-- Starts the next branch of a choice; outside of one a comma stands for itself. -/
def Reader.comma (r : Reader) : Reader :=
  match r.groups with
  | [] => r.push (.literal ',') ','
  | (branches, before) :: rest =>
    { r with
      current := []
      groups := (branches ++ [r.current.reverse], before) :: rest
      previous := some ',' }

/-- Two stars that mean no more than one. -/
def Reader.plainStars (r : Reader) : Reader :=
  { r with current := .star :: .star :: r.current, previous := some '*' }

/-- Puts a token for directories in the place of the slash before it; of two such tokens at the
front or at the end only one is kept. -/
def Reader.directories (r : Reader) (token : GlobToken) (last : Char) : Reader :=
  match r.current with
  | .leading :: _ => { r with previous := some last }
  | .trailing :: _ => { r with previous := some last }
  | _ :: before => { r with current := token :: before, previous := some last }
  | [] => { r with previous := some last }

/-- Whether two stars may stand for directories after the last character. -/
def Reader.afterSlash (r : Reader) : Bool :=
  r.previous == some '/' ||
    (!r.groups.isEmpty && (r.previous == some ',' || r.previous == some '\x7b'))

/-- Reads what follows two stars. -/
def Reader.twoStars (r : Reader) (rest : List Char) : Reader × List Char :=
  if r.current.isEmpty then
    match rest with
    | [] => (r.push .leading '*', [])
    | '/' :: rest => (r.push .leading '/', rest)
    | rest => (r.plainStars, rest)
  else if r.afterSlash then
    match rest with
    | [] => (r.directories .trailing '*', [])
    | '/' :: rest => (r.directories .between '/', rest)
    | c :: rest =>
      if !r.groups.isEmpty && (c == ',' || c == '\x7d') then (r.directories .trailing '*', c :: rest)
      else (r.plainStars, c :: rest)
  else (r.plainStars, rest)

/-- What comes of reading a class. -/
inductive ClassResult where
  | closed (ranges : List (Char × Char)) (rest : List Char)
  | unclosed
  | backwards

/-- Ends the last range at a character; ranges come last first. -/
def endRange (c : Char) : List (Char × Char) → Option (List (Char × Char))
  | (low, _) :: before => if c < low then none else some ((low, c) :: before)
  | [] => some [(c, c)]

/-- Reads the characters of a class. A bracket or a dash in front stands for itself, and so does a
dash at the end. -/
def classRest (first inRange : Bool) (ranges : List (Char × Char)) : List Char → ClassResult
  | [] => .unclosed
  | ']' :: rest =>
    if first then classRest false false ((']', ']') :: ranges) rest
    else .closed (if inRange then ('-', '-') :: ranges else ranges).reverse rest
  | '-' :: rest =>
    if first then classRest false false (('-', '-') :: ranges) rest
    else if inRange then
      match endRange '-' ranges with
      | some ranges => classRest false false ranges rest
      | none => .backwards
    else classRest false true ranges rest
  | c :: rest =>
    if inRange then
      match endRange c ranges with
      | some ranges => classRest false false ranges rest
      | none => .backwards
    else classRest false false ((c, c) :: ranges) rest

/-- Whether a class is of the characters that are not listed, and the list. -/
def classSign : List Char → Bool × List Char
  | '!' :: rest => (true, rest)
  | '^' :: rest => (true, rest)
  | cs => (false, cs)

/-- Reads a class after its opening bracket. -/
def Reader.readClass (r : Reader) (rest : List Char) : Option (Reader × List Char) :=
  let (negated, body) := classSign rest
  match classRest true false [] body with
  | .closed ranges rest => some (r.push (.charClass negated ranges) ']', rest)
  | .unclosed =>
    if r.options.keepOpenBracket then
      some ({ r.push (.literal '[') '[' with openBracket := true }, rest)
    else none
  | .backwards => none

/-- Reads the next piece of a glob. -/
def Reader.step (r : Reader) (c : Char) (rest : List Char) : Option (Reader × List Char) :=
  match c with
  | '?' => some (r.push .any '?', rest)
  | '*' =>
    match rest with
    | '*' :: rest => some (r.twoStars rest)
    | rest => some (r.push .star '*', rest)
  | '[' => if r.openBracket then some (r.push (.literal '[') '[', rest) else r.readClass rest
  | '\x7b' => some (r.openGroup, rest)
  | '\x7d' => r.closeGroup.map fun r => (r, rest)
  | ',' => some (r.comma, rest)
  | '\\' =>
    match rest with
    | [] => none
    | c :: rest => some (r.push (.literal c) c, rest)
  | c => some (r.push (.literal c) c, rest)

/-- Reads the pieces of a glob; `fuel` bounds their number. -/
def Reader.run : (fuel : Nat) → Reader → List Char → Option (List GlobToken)
  | _, r, [] => if r.groups.isEmpty then some r.current.reverse else none
  | 0, _, _ :: _ => none
  | fuel + 1, r, c :: rest =>
    match r.step c rest with
    | some (r, rest) => run fuel r rest
    | none => none

/-- The tokens of a glob. -/
def parse? (options : GlobOptions) (text : String) : Option (List GlobToken) :=
  Reader.run text.length { options } text.toList

/-! ## Meaning -/

/-- The bytes of a character. -/
def charBytes (c : Char) : List UInt8 := (String.singleton c).toUTF8.toList

/-- The ranges of bytes of a range of characters. A character of several bytes counts byte by byte,
and the range goes from the last byte of its first to the first byte of its last character. -/
def rangeBytes (r : Char × Char) : List (UInt8 × UInt8) :=
  let low := charBytes r.1
  let single (bs : List UInt8) := bs.map fun b => (b, b)
  if r.1 = r.2 then single low
  else
    match low.getLast?, charBytes r.2 with
    | some l, h :: more => single low.dropLast ++ [(l, h)] ++ single more
    | _, _ => []

/-- The slash. -/
def slash : Pattern := .byte 0x2f

/-- Any bytes. -/
def anything : Pattern := .many .any

/-- One byte that a wildcard may stand for. -/
def wildcard (options : GlobOptions) : Pattern :=
  if options.stopAtSlash then .anyBut 0x2f else .any

/-- A choice between patterns; there is none between none. -/
def oneOf? : List Pattern → Option Pattern
  | [] => none
  | [p] => some p
  | p :: rest => (oneOf? rest).map (.alt p)

/-- Two optional patterns in sequence. -/
def inSequence : Option Pattern → Option Pattern → Option Pattern
  | none, q => q
  | p, none => p
  | some p, some q => some (.seq p q)

mutual

/-- The pattern of a token, unless it stands for nothing. -/
def tokenPattern? (options : GlobOptions) : GlobToken → Option Pattern
  | .literal c => some (.concat ((charBytes c).map .byte))
  | .any => some (wildcard options)
  | .star => some (.many (wildcard options))
  | .leading => some (.alt (.alt .empty slash) (.seq anything slash))
  | .trailing => some (.seq slash anything)
  | .between => some (.alt slash (.seq slash (.seq anything slash)))
  | .charClass negated ranges => some (.one ⟨negated, ranges.flatMap rangeBytes⟩)
  | .choice branches => oneOf? (branchPatterns options branches)

/-- The pattern of tokens in sequence, unless all stand for nothing. -/
def sequence? (options : GlobOptions) : List GlobToken → Option Pattern
  | [] => none
  | t :: rest => inSequence (tokenPattern? options t) (sequence? options rest)

/-- The patterns of the branches of a choice; a branch that stands for nothing does not count. -/
def branchPatterns (options : GlobOptions) : List (List GlobToken) → List Pattern
  | [] => []
  | ts :: rest =>
    match sequence? options ts with
    | some p => p :: branchPatterns options rest
    | none => branchPatterns options rest

end

/-- The pattern of tokens. Two stars alone stand for everything. -/
def toPattern (options : GlobOptions) : List GlobToken → Pattern
  | [.leading] => anything
  | ts => (sequence? options ts).getD .empty

/-- The pattern that a glob stands for. -/
def compile? (options : GlobOptions) (text : String) : Option Pattern :=
  (parse? options text).map (toPattern options)

end Glob

end CodeGraph

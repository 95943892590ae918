import CodeGraph.Text.Blank
import CodeGraph.Text.AlphanumericTable
import Std.Data.ExtTreeMap

/-!
# Environments and environment files

An environment gives names values. A file of assignments adds to it, one line after another: a name
that has a value keeps it, and reading stops at the first malformed line.

* `Environment`: the values of names.
* `EnvironmentFile.logicalLines`: the lines of a file; one with an open quote goes on in the next.
* `EnvironmentFile.assignment`: what a line assigns.
* `Environment.load`: the environment after a file.
-/

namespace CodeGraph

/-- The values of names. -/
abbrev Environment := Std.ExtTreeMap String String

namespace EnvironmentFile

/-! ## Lines -/

/-- Where the scan of a line stands. -/
inductive LineState where
  | plain
  /-- After a blank, where a comment may start. -/
  | blank
  | escape
  | weak
  | weakEscape
  | strong
  | strongEscape
  deriving DecidableEq, Repr

/-- Outside of quotes. -/
def LineState.outside (c : Char) : LineState :=
  if c = '\\' then escape
  else if c = '"' then weak
  else if c = '\'' then strong
  else plain

/-- The state after a character. -/
def LineState.next : LineState → Char → LineState
  | plain, c => if Text.isBlank c && c != '\n' && c != '\r' then blank else outside c
  | blank, c => outside c
  | escape, _ => plain
  | weak, c => if c = '\\' then weakEscape else if c = '"' then plain else weak
  | weakEscape, _ => weak
  | strong, c => if c = '\\' then strongEscape else if c = '\'' then plain else strong
  | strongEscape, _ => strong

/-- Scans a line: what stands before a comment, and the state at its end unless there is one. -/
def scan : LineState → List Char → List Char × Option LineState
  | state, [] => ([], some state)
  | state, c :: rest =>
    if state = .blank ∧ c = '#' then ([], none)
    else
      let (kept, final) := scan (state.next c) rest
      (c :: kept, final)

/-- The lines of a text, each with its line break. -/
def physicalLines : List Char → List (List Char)
  | [] => []
  | '\n' :: rest => ['\n'] :: physicalLines rest
  | c :: rest =>
    match physicalLines rest with
    | [] => [[c]]
    | line :: more => (c :: line) :: more

/-- Whether nothing but a comment stands in a line. -/
def isComment (line : List Char) : Bool := (line.dropWhile Text.isBlank).head? == some '#'

/-- The lines of a file after an unfinished one, which a state and a beginning describe. A file that
ends inside of quotes ends in a malformed line, `none`. -/
def linesFrom : LineState → List Char → List (List Char) → List (Option (List Char))
  | state, _, [] => if state = .plain then [] else [none]
  | state, start, line :: rest =>
    if start.isEmpty && isComment line then linesFrom .plain [] rest
    else
      match scan state line with
      | (kept, none) => some (start ++ kept) :: linesFrom .plain [] rest
      | (kept, some .plain) => some (start ++ kept) :: linesFrom .plain [] rest
      | (kept, some state) => linesFrom state (start ++ kept) rest

/-- The text without a byte order mark at its front. -/
def withoutMark : List Char → List Char
  | c :: rest => if c.toNat = 0xfeff then rest else c :: rest
  | [] => []

/-- The lines of a file. -/
def logicalLines (text : String) : List (Option (List Char)) :=
  linesFrom .plain [] (physicalLines (withoutMark text.toList))

/-! ## Values -/

/-- Where the reading of a value stands. -/
inductive ValueMode where
  | plain
  | escaped
  | strong
  /-- After a blank that ends the value. -/
  | ended
  | comment
  /-- Inside a name that is to be replaced by its value. -/
  | name (letters : List Char)
  | braced (letters : List Char)
  deriving DecidableEq, Repr

/-- A value read so far, backwards, and whether double quotes are open. -/
structure ValueState where
  mode : ValueMode := .plain
  quoted : Bool := false
  output : List Char := []

/-- The character of an escape. -/
def escaped? (c : Char) : Option Char :=
  if c = '\\' ∨ c = '\'' ∨ c = '"' ∨ c = ' ' ∨ c = '$' then some c
  else if c = 'n' then some '\n'
  else none

/-- A letter or a digit. -/
def isAlphanumeric (c : Char) : Bool := Text.inRanges Text.alphanumericRanges c

namespace ValueState

/-- Adds a character. -/
def push (s : ValueState) (c : Char) : ValueState :=
  { s with mode := .plain, output := c :: s.output }

/-- Adds the value of a name, which is empty if it has none. -/
def substitute (env : Environment) (letters : List Char) (s : ValueState) : ValueState :=
  let value := env[String.ofList letters.reverse]?.getD ""
  { s with mode := .plain, output := value.toList.reverse ++ s.output }

/-- Reads a character of a name that is not in braces. -/
def nameStep (env : Environment) (letters : List Char) (s : ValueState) (c : Char) : ValueState :=
  if isAlphanumeric c then { s with mode := .name (c :: letters) }
  else if c = '\x7b' ∧ letters = [] then { s with mode := .braced [] }
  else if c = '$' then { s.substitute env letters with mode := .name [] }
  else (s.substitute env letters).push c

/-- Reads a character outside of names, escapes and single quotes. -/
def plainStep (s : ValueState) (c : Char) : ValueState :=
  if c = '$' then { s with mode := .name [] }
  else if c = '\\' then { s with mode := .escaped }
  else if c = '"' then { s with quoted := !s.quoted }
  else if s.quoted then s.push c
  else if c = '\'' then { s with mode := .strong }
  else if c = ' ' ∨ c = '\t' then { s with mode := .ended }
  else s.push c

/-- Reads a character of a value; `none` if it may not stand there. -/
def step (env : Environment) (s : ValueState) (c : Char) : Option ValueState :=
  match s.mode with
  | .plain => some (s.plainStep c)
  | .escaped => (escaped? c).map s.push
  | .strong => if c = '\'' then some { s with mode := .plain }
      else some { s with output := c :: s.output }
  | .ended =>
    if c = ' ' ∨ c = '\t' then some s
    else if c = '#' then some { s with mode := .comment }
    else none
  | .comment => some s
  | .name letters => some (s.nameStep env letters c)
  | .braced letters =>
    if c = '\x7d' then some (s.substitute env letters)
    else some { s with mode := .braced (c :: letters) }

/-- The value that was read; `none` if a quote or a brace is still open. -/
def finish (env : Environment) (s : ValueState) : Option String :=
  match s.mode with
  | .strong => none
  | .braced _ => none
  | .name letters =>
    if s.quoted then none else some (String.ofList (s.substitute env letters).output.reverse)
  | _ => if s.quoted then none else some (String.ofList s.output.reverse)

end ValueState

/-- Reads a value, with the values of an environment in the place of names. -/
def value? (env : Environment) (cs : List Char) : Option String :=
  (cs.foldlM (ValueState.step env) {}).bind (·.finish env)

/-! ## Assignments -/

/-- A character that may start a name. -/
def isNameStart (c : Char) : Bool := c.isAlpha || c == '_'

/-- A character of a name. -/
def isNamePart (c : Char) : Bool := c.isAlphanum || c == '_' || c == '.'

/-- Reads a name and the blanks after it. -/
def name : List Char → Option (String × List Char)
  | [] => none
  | c :: rest =>
    if isNameStart c then
      some (String.ofList ((c :: rest).takeWhile isNamePart),
        ((c :: rest).dropWhile isNamePart).dropWhile Text.isBlank)
    else none

/-- Reads the name that is assigned to; the word `export` may stand before it. -/
def target (cs : List Char) : Option (String × List Char) := do
  let (first, rest) ← name cs
  match rest with
  | '=' :: rest => some (first, rest)
  | rest =>
    if first = "export" then
      let (second, rest) ← name rest
      match rest with
      | '=' :: rest => some (second, rest)
      | _ => none
    else none

/-- Whether a line has come to its end or to a comment. -/
def isOver (cs : List Char) : Bool := cs.isEmpty || cs.head? == some '#'

/-- What a line assigns to which name. An empty line assigns nothing, and a malformed line is
`none`. -/
def assignment (env : Environment) (line : List Char) : Option (Option (String × String)) :=
  let cs := (Text.trimEnd line).dropWhile Text.isBlank
  if isOver cs then some none
  else do
    let (key, rest) ← target cs
    let rest := rest.dropWhile Text.isBlank
    if isOver rest then some (some (key, ""))
    else
      let value ← value? env rest
      some (some (key, value))

end EnvironmentFile

open EnvironmentFile in
/-- The environment after the lines of a file, up to the first malformed one. -/
def Environment.loadLines : Environment → List (Option (List Char)) → Environment
  | env, [] => env
  | env, none :: _ => env
  | env, some line :: rest =>
    match assignment env line with
    | none => env
    | some none => loadLines env rest
    | some (some (key, value)) => loadLines (env.insertIfNew key value) rest

/-- The environment after a file of assignments. -/
def Environment.load (env : Environment) (text : String) : Environment :=
  env.loadLines (EnvironmentFile.logicalLines text)

end CodeGraph

import CodeGraph.Ignore.Glob
import CodeGraph.Path
import CodeGraph.Text.Blank

/-!
# Ignore files

An ignore file has one rule a line. The last rule that fits a path decides whether it is ignored,
and a path that no rule fits goes with the nearest directory above it that one does.

* `IgnoreRule`, `IgnoreRule.ofLine?`: the rules.
* `IgnoreFile.ofText`: the rules of a file.
* `IgnoreFile.ignores`: whether a file is ignored.
-/

namespace CodeGraph

/-- A rule of an ignore file. -/
structure IgnoreRule where
  pattern : Pattern
  /-- Whether what fits is kept rather than ignored. -/
  keeps : Bool := false
  /-- Whether only directories can fit. -/
  onlyDirectories : Bool := false

namespace IgnoreRule

/-- How the globs of ignore files are read. -/
def options : GlobOptions := { stopAtSlash := true, keepOpenBracket := true }

/-- A line without the blanks at its end, unless the last one is escaped. -/
def trimLine (line : List Char) : List Char :=
  match line.reverse with
  | ' ' :: '\\' :: _ => line
  | _ => Text.trimEnd line

/-- The signs in front of a glob: whether it keeps, whether it is bound to the top, and the rest. -/
def signs (line : List Char) : Bool × Bool × List Char :=
  let top (keeps : Bool) : List Char → Bool × Bool × List Char
    | '/' :: rest => (keeps, true, rest)
    | cs => (keeps, false, cs)
  match line with
  | '\\' :: '!' :: rest => (false, false, '!' :: rest)
  | '\\' :: '#' :: rest => (false, false, '#' :: rest)
  | '!' :: rest => top true rest
  | cs => top false cs

/-- Takes a slash at the end away, and a backslash before it. -/
def endSlash (cs : List Char) : Bool × List Char :=
  match cs.reverse with
  | '/' :: '\\' :: rest => (true, rest.reverse)
  | '/' :: rest => (true, rest.reverse)
  | _ => (false, cs)

/-- Whether a glob already fits at any depth. -/
def isDeep (cs : List Char) : Bool := ['*', '*', '/'].isPrefixOf cs || cs == ['*', '*']

/-- A glob without a slash fits at any depth. -/
def deepen (top : Bool) (cs : List Char) : List Char :=
  if top || cs.contains '/' || isDeep cs then cs else '*' :: '*' :: '/' :: cs

/-- A glob for all inside a directory does not fit the directory itself. -/
def inside (cs : List Char) : List Char :=
  if ['/', '*', '*'].isSuffixOf cs then cs ++ ['/', '*'] else cs

/-- The rule of a line. Comments, empty lines and ill-formed globs are no rules. -/
def ofLine? (line : List Char) : Option IgnoreRule :=
  if line.head? == some '#' then none
  else
    let line := trimLine line
    if line.isEmpty then none
    else
      let (keeps, top, body) := signs line
      let (onlyDirectories, body) := endSlash body
      let glob := inside (deepen top body)
      (Glob.compile? options (String.ofList glob)).map fun pattern =>
        { pattern, keeps, onlyDirectories }

end IgnoreRule

/-- The rules of an ignore file, in order. -/
abbrev IgnoreFile := List IgnoreRule

namespace IgnoreFile

/-- The lines of a text, without their line breaks. -/
def splitLines : List Char → List (List Char)
  | [] => []
  | '\n' :: rest => [] :: splitLines rest
  | c :: rest =>
    match splitLines rest with
    | [] => [[c]]
    | line :: more => if rest.head? == some '\n' && c == '\r' then line :: more
        else (c :: line) :: more

/-- The text without byte order marks at its front. -/
def withoutMarks (cs : List Char) : List Char := cs.dropWhile fun c => c.toNat == 0xfeff

/-- The rules of a text. -/
def ofText (text : String) : IgnoreFile :=
  (splitLines (withoutMarks text.toList)).filterMap IgnoreRule.ofLine?

/-- What the last rule that fits a path says: whether it is ignored. -/
def verdict? (rules : IgnoreFile) (path : Path) (isDirectory : Bool) : Option Bool :=
  (rules.reverse.find? fun r =>
    r.pattern.accepts path.text && (isDirectory || !r.onlyDirectories)).map fun r => !r.keeps

/-- The directories above a path, the nearest first; `fuel` bounds their number. -/
def directoriesAbove : (fuel : Nat) → Path → List Path
  | 0, _ => []
  | fuel + 1, p =>
    match p.parent? with
    | none => []
    | some parent => parent :: directoriesAbove fuel parent

/-- Whether a file is ignored, by itself or with a directory above it. -/
def ignores (rules : IgnoreFile) (path : Path) : Bool :=
  ((rules.verdict? path false).or
    ((directoriesAbove path.text.length path).findSome? fun d => rules.verdict? d true)).getD false

end IgnoreFile

end CodeGraph

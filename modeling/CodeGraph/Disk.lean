import CodeGraph.Path

/-!
# Disks

A disk as a value: directories and files by location, and the directory from which relative paths
are followed. A path is followed segment by segment, so `..` leads through directories that exist.

* `Disk`, `Location`, `Entry`: the contents.
* `Place`, `Disk.find`: where a path leads.
* `Disk.read`, `Disk.children`, `Disk.canonical?`: looking.
* `Disk.makeDirs`, `Disk.write`, `Disk.rename`, `Disk.removeFile`, `Disk.removeDirs`: changing.
-/

namespace CodeGraph

/-- The names that lead from the root of the disk to a place. -/
abbrev Location := List String

/-- What stands at a location. -/
inductive Entry where
  | directory
  | file (content : String)
  deriving DecidableEq, Repr

/-- The contents of a disk, without its root, and a working directory. -/
structure Disk where
  entries : Std.ExtTreeMap Location Entry := ∅
  workingDirectory : Location := []

/-- Why an operation on a disk was refused: something is missing, or something is in the way. -/
inductive Refusal where
  | missing
  | blocked
  deriving DecidableEq, Repr

/-- Where a path leads. -/
inductive Place where
  /-- To something that exists. -/
  | found (location : Location)
  /-- To a name that is free in a directory that exists. -/
  | free (location : Location)
  /-- Nowhere. -/
  | none (reason : Refusal)
  deriving DecidableEq, Repr

namespace Disk

/-! ## Following paths -/

/-- What stands at a location; the root is a directory. -/
def entryAt? (d : Disk) (l : Location) : Option Entry :=
  if l.isEmpty then some .directory else d.entries[l]?

/-- One segment further. Only a directory can be left, and `..` at the root stays there. -/
def follow (d : Disk) : Place → List Char → Place
  | .found l, segment =>
    if d.entryAt? l = some .directory then
      match segment with
      | [] => .found l
      | ['.'] => .found l
      | ['.', '.'] => .found l.dropLast
      | name =>
        let l := l ++ [String.ofList name]
        if (d.entryAt? l).isSome then .found l else .free l
    else .none .blocked
  | .free l, [] => .free l
  | .free _, _ => .none .missing
  | .none reason, _ => .none reason

/-- Where a path leads. The empty path leads nowhere. -/
def find (d : Disk) (p : Path) : Place :=
  if p.text.isEmpty then .none .missing
  else
    let start := if p.isAbsolute then [] else d.workingDirectory
    (splitSlash p.text.toList).foldl d.follow (.found start)

/-! ## Looking -/

/-- What a path leads to. -/
def entry? (d : Disk) (p : Path) : Option Entry :=
  match d.find p with
  | .found l => d.entryAt? l
  | _ => none

/-- Whether a path leads to something. -/
def exists? (d : Disk) (p : Path) : Bool := (d.entry? p).isSome

/-- Whether a path leads to a directory. -/
def isDirectory (d : Disk) (p : Path) : Bool := d.entry? p == some .directory

/-- The content of a file. -/
def read (d : Disk) (p : Path) : Except Refusal String :=
  match d.entry? p with
  | some (.file content) => .ok content
  | some .directory => .error .blocked
  | none => .error .missing

/-- The absolute path of a location. -/
def pathOf (l : Location) : Path := .ofParts (.root :: l.map .name)

/-- The absolute path, without `.` and `..`, of what a path leads to. -/
def canonical? (d : Disk) (p : Path) : Option Path :=
  match d.find p with
  | .found l => some (pathOf l)
  | _ => none

/-- The names in a directory; anything else has none. -/
def children (d : Disk) (p : Path) : List String :=
  match d.find p with
  | .found l => d.entries.keys.filterMap fun k => if k.dropLast == l then k.getLast? else none
  | _ => []

/-- Everything below a location, in order, as seen from there. -/
def below (d : Disk) (l : Location) : List (Location × Entry) :=
  d.entries.toList.filterMap fun (k, e) =>
    if l.isPrefixOf k && l.length < k.length then some (k.drop l.length, e) else none

/-! ## Changing -/

/-- Makes one directory; its parent must exist. -/
def makeDir (d : Disk) (p : Path) : Except Refusal Disk :=
  match d.find p with
  | .free l => .ok { d with entries := d.entries.insert l .directory }
  | .found _ => .error .blocked
  | .none reason => .error reason

/-- Makes a directory and those above it that are missing; `fuel` bounds how many. -/
def makeDirsWithin : (fuel : Nat) → Disk → Path → Except Refusal Disk
  | 0, _, _ => .error .missing
  | fuel + 1, d, p =>
    if p.text.isEmpty then .ok d
    else
      match d.makeDir p with
      | .ok d => .ok d
      | .error .blocked => if d.isDirectory p then .ok d else .error .blocked
      | .error .missing =>
        match p.parent? with
        | none => .error .missing
        | some parent =>
          match makeDirsWithin fuel d parent with
          | .error reason => .error reason
          | .ok d =>
            match d.makeDir p with
            | .ok d => .ok d
            | .error reason => if d.isDirectory p then .ok d else .error reason

/-- Makes a directory and those above it that are missing. -/
def makeDirs (d : Disk) (p : Path) : Except Refusal Disk :=
  makeDirsWithin (p.text.length + 1) d p

/-- Writes a file, in the place of one that is there. -/
def write (d : Disk) (p : Path) (content : String) : Except Refusal Disk :=
  match d.find p with
  | .free l => .ok { d with entries := d.entries.insert l (.file content) }
  | .found l =>
    if d.entryAt? l = some .directory then .error .blocked
    else .ok { d with entries := d.entries.insert l (.file content) }
  | .none reason => .error reason

/-- Takes a file away. -/
def removeFile (d : Disk) (p : Path) : Except Refusal Disk :=
  match d.find p with
  | .found l =>
    if d.entryAt? l = some .directory then .error .blocked
    else .ok { d with entries := d.entries.erase l }
  | .free _ => .error .missing
  | .none reason => .error reason

/-- Gives a file another path, in the place of a file that is there. Either it is done, or the disk
stays as it was. -/
def rename (d : Disk) (source target : Path) : Except Refusal Disk := do
  let content ← d.read source
  let moved ← d.write target content
  if d.find source = d.find target then .ok d else moved.removeFile source

/-- Everything outside a directory, and the directory itself if it is to be kept. -/
def without (d : Disk) (l : Location) (keep : Bool) : Disk :=
  { d with entries := d.entries.filter fun k _ => !(l.isPrefixOf k) || (keep && k == l) }

/-- Takes a directory away with all it holds. A path that ends in `.` empties the directory and is
then refused; one that ends in `..` leaves it empty. -/
def removeDirs (d : Disk) (p : Path) : Disk × Except Refusal Unit :=
  match d.find p with
  | .found l =>
    if d.entryAt? l = some .directory then
      match (splitSlash p.text.toList).getLast? with
      | some ['.'] => (d.without l true, .error .blocked)
      | some ['.', '.'] => (d.without l true, .ok ())
      | _ => (d.without l false, .ok ())
    else (d, .error .blocked)
  | .free _ => (d, .error .missing)
  | .none reason => (d, .error reason)

end Disk

end CodeGraph

import Std.Data.ExtTreeMap
import Std.Data.ExtTreeSet

/-!
# Paths

A path is a text, kept as it was given, and stands for the list of its parts. Paths are compared,
ordered and looked up by their parts, so `a//b`, `a/./b` and `a/b/` name the same place as `a/b`;
`./a` differs from `a`, and `..` is a part like any other.

* `Part`, `Path.parts`: the parts of a path.
* `Path.join`, `Path.parent?`, `Path.extension?`, `Path.startsWith`: reading and building.
* `Path.normalize`: removes `.` and resolves `..` without looking at a disk.
* `PathMap`, `PathSet`: collections that do not tell two spellings of a path apart.
-/

namespace CodeGraph

/-! ## Parts -/

/-- One part of a path: the root, the current directory, the parent directory or a name. -/
inductive Part where
  | root
  | here
  | up
  | name (text : String)
  deriving DecidableEq, Repr

namespace Part

/-- A part as it is written. -/
def text : Part → String
  | root => "/"
  | here => "."
  | up => ".."
  | name n => n

/-- The order of the four kinds of part. -/
def rank : Part → Nat
  | root => 0
  | here => 1
  | up => 2
  | name _ => 3

/-- Parts are ordered by kind, and names by their text. -/
instance : Ord Part := ⟨compareLex (compareOn rank) (compareOn text)⟩

theorem compare_def : (compare : Part → Part → Ordering) =
    compareLex (compareOn rank) (compareOn text) := rfl

theorem eq_of_rank_text {a b : Part} (hr : a.rank = b.rank) (ht : a.text = b.text) : a = b := by
  cases a <;> cases b <;> simp_all [rank, text]

instance : Std.TransOrd Part :=
  inferInstanceAs (Std.TransCmp (compareLex (compareOn rank) (compareOn text)))

instance : Std.LawfulEqOrd Part where
  eq_of_compare := by
    intro a b h
    rw [compare_def, compareLex_eq_eq] at h
    exact eq_of_rank_text (Std.LawfulEqOrd.eq_of_compare (α := Nat) h.1)
      (Std.LawfulEqOrd.eq_of_compare (α := String) h.2)

/-- The part that a segment between two slashes stands for; an empty segment and `.` stand for
none. -/
def ofSegment? : List Char → Option Part
  | [] => none
  | ['.'] => none
  | ['.', '.'] => some up
  | cs => some (name (String.ofList cs))

end Part

/-- The segments of a text between its slashes; there is always at least one. -/
def splitSlash : List Char → List (List Char)
  | [] => [[]]
  | '/' :: cs => [] :: splitSlash cs
  | c :: cs =>
    match splitSlash cs with
    | [] => [[c]]
    | s :: rest => (c :: s) :: rest

/-! ## Paths -/

/-- A path, kept as the text it was given as. -/
structure Path where
  text : String
  deriving DecidableEq, Repr

namespace Path

/-- The parts of a path. A leading `.` counts; any other `.` and empty segments do not. -/
def parts (p : Path) : List Part :=
  match splitSlash p.text.toList with
  | [] => []
  | [] :: [] => []
  | [] :: rest => .root :: rest.filterMap Part.ofSegment?
  | ['.'] :: rest => .here :: rest.filterMap Part.ofSegment?
  | segments => segments.filterMap Part.ofSegment?

/-- Two paths are the same place if they have the same parts. -/
def same (p q : Path) : Bool := p.parts == q.parts

/-- Paths are ordered by their parts. -/
def cmp (p q : Path) : Ordering := compare p.parts q.parts

/-- A path that starts at the root. -/
def isAbsolute (p : Path) : Bool := p.text.toList.head? == some '/'

/-- The text of a list of parts: names divided by single slashes, after the root if it is there. -/
def ofParts : List Part → Path
  | .root :: rest => ⟨"/" ++ String.intercalate "/" (rest.map Part.text)⟩
  | ps => ⟨String.intercalate "/" (ps.map Part.text)⟩

/-- `q` seen from `p`: an absolute path stands alone, any other is written after `p`. -/
def join (p q : Path) : Path :=
  if q.isAbsolute then q
  else if p.text.isEmpty then q
  else if p.text.toList.getLast? == some '/' then ⟨p.text ++ q.text⟩
  else ⟨p.text ++ "/" ++ q.text⟩

/-- The name of the file, if the path ends in a name. -/
def fileName? (p : Path) : Option String :=
  match p.parts.getLast? with
  | some (.name n) => some n
  | _ => none

/-- The part of a file name after its last dot. A name that only starts with a dot has none. -/
def extensionOf? (name : List Char) : Option (List Char) :=
  match name.reverse.dropWhile (· != '.') with
  | _ :: _ :: _ => some (name.reverse.takeWhile (· != '.')).reverse
  | _ => none

/-- The extension of the file name, without the dot. -/
def extension? (p : Path) : Option String :=
  (p.fileName?.bind fun n => extensionOf? n.toList).map String.ofList

/-- Whether the parts of `p` begin with those of `q`. -/
def startsWith (p q : Path) : Bool := q.parts.isPrefixOf p.parts

/-- `p` as seen from `q`, if it lies below it. -/
def below? (p q : Path) : Option Path :=
  if p.startsWith q then some (ofParts (p.parts.drop q.parts.length)) else none

/-- Adds a part to the reversed list of the parts already resolved: `.` is dropped, and `..` takes
the last part away, or stays where there is none to take. -/
def resolvePart (out : List Part) : Part → List Part
  | .here => out
  | .up =>
    match out with
    | [] => [.up]
    | .root :: rest => .up :: .root :: rest
    | _ :: rest => rest
  | part => part :: out

/-- The path with `.` and `..` resolved by their text alone. -/
def normalize (p : Path) : Path := ofParts (p.parts.foldl resolvePart []).reverse

/-- Whether a segment is empty or a dot, and so stands for no part. -/
def isVoid (segment : List Char) : Bool := segment == [] || segment == ['.']

/-- A list of segments without the void ones at its end. -/
def trimVoid (segments : List (List Char)) : List (List Char) :=
  (segments.reverse.dropWhile isVoid).reverse

/-- The text of a first segment and those after it. -/
def ofSegments (first : List Char) (rest : List (List Char)) : Path :=
  if rest.isEmpty && first.isEmpty then ⟨"/"⟩
  else ⟨String.intercalate "/" ((first :: rest).map String.ofList)⟩

/-- The path without its last part; the root and the empty path have none. -/
def parent? (p : Path) : Option Path :=
  match splitSlash p.text.toList with
  | [] => none
  | first :: rest =>
    match (trimVoid rest).reverse with
    | _ :: before => some (ofSegments first (trimVoid before.reverse))
    | [] => if first.isEmpty then none else some ⟨""⟩

end Path

/-! ## Collections keyed by path -/

/-- A map whose keys are paths up to spelling. -/
abbrev PathMap (β : Type) := Std.ExtTreeMap (List Part) β

/-- A set of paths up to spelling. -/
abbrev PathSet := Std.ExtTreeSet (List Part)

end CodeGraph

import CodeGraph.Disk
import CodeGraph.Error

/-!
# Project roots

The directory to which all paths of a graph are relative, found by the markers that tools leave at
the top of a project.

* `Workspace`, `Workspace.detect`: the markers, in order of precedence.
* `ProjectRoot.ofPath`, `ProjectRoot.discover`: a root from a directory, or from a marker above it.
* `ProjectRoot.relative`, `ProjectRoot.absolute`: paths as seen from the root, and back.
-/

namespace CodeGraph

/-- The kind of marker at the top of a project. -/
inductive Workspace where
  | git
  | cargo
  | dotNet
  | npm
  | goModules
  deriving DecidableEq, Repr

namespace Workspace

/-- The name of a kind of marker. -/
def name : Workspace → String
  | git => "Git"
  | cargo => "Cargo"
  | dotNet => "DotNet"
  | npm => "Npm"
  | goModules => "GoModules"

/-- Whether a directory holds a solution file. -/
def hasSolution (disk : Disk) (dir : Path) : Bool :=
  (disk.children dir).any fun name => Path.extensionOf? name.toList == some ['s', 'l', 'n']

/-- The marker that a directory holds. -/
def detect (disk : Disk) (dir : Path) : Option Workspace :=
  if disk.exists? (dir.join ⟨".git"⟩) then some git
  else if disk.exists? (dir.join ⟨"Cargo.toml"⟩) then some cargo
  else if hasSolution disk dir then some dotNet
  else if disk.exists? (dir.join ⟨"package.json"⟩) then some npm
  else if disk.exists? (dir.join ⟨"go.mod"⟩) then some goModules
  else none

end Workspace

/-- A project root: a canonical path, and the marker that it holds. -/
structure ProjectRoot where
  path : Path
  workspace : Option Workspace := none
  deriving DecidableEq, Repr

namespace ProjectRoot

/-- The root at a path that exists. -/
def ofPath (disk : Disk) (p : Path) : Except Error ProjectRoot :=
  match disk.canonical? p with
  | some path => .ok { path, workspace := Workspace.detect disk path }
  | none => .error (.projectRoot p)

/-- A canonical path and the directories above it, the nearest first. -/
def ancestors (p : Path) : List Path :=
  ((List.range p.parts.length).map fun k => .ofParts (p.parts.take (k + 1))).reverse

/-- The nearest directory at or above a path that holds a marker, or the path itself. -/
def discover (disk : Disk) (start : Path) : Except Error ProjectRoot := do
  let root ← ofPath disk start
  let marked := (ancestors root.path).findSome? fun dir =>
    (Workspace.detect disk dir).map fun w => { path := dir, workspace := some w : ProjectRoot }
  .ok (marked.getD root)

/-- A path as seen from the root. A relative path is taken as seen from the root already, and an
absolute path outside of the root stays absolute; `.` and `..` are resolved by their text. -/
def relative (root : ProjectRoot) (p : Path) : Path :=
  let n := p.normalize
  if n.isAbsolute then (n.below? root.path).getD n else n

/-- Where a path as seen from the root lies. -/
def absolute (root : ProjectRoot) (p : Path) : Path := root.path.join p

end ProjectRoot

end CodeGraph

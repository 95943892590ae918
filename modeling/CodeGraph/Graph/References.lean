import CodeGraph.Graph.Index
import CodeGraph.Declaration

/-!
# References between files and declarations

Which declarations a file refers to, and which files refer to a declaration. The two sides say the
same; a change of a declaration reaches the files on the second.

* `References`: the two sides.
* `References.record`, `References.recordEdges`, `References.removeFile`: changing them together.
* `References.filesOf`, `References.filesOfAll`, `References.targetsOf`: asking.
-/

namespace CodeGraph

/-- References from files to declarations, indexed both ways. The files of a declaration are kept
with the spelling under which they were first recorded. -/
structure References where
  targets : Index (List Part) NodeId := ∅
  files : Std.ExtTreeMap NodeId (PathMap Path) := ∅

namespace References

/-- No references. -/
def empty : References := {}

/-- The files that refer to a declaration. -/
def filesOf (r : References) (target : NodeId) : PathMap Path := r.files[target]?.getD ∅

/-- The files that refer to one of several declarations; the first spelling found counts. -/
def filesOfAll (r : References) (targets : List NodeId) : PathMap Path :=
  targets.foldl (fun found target =>
    (r.filesOf target).foldl (fun found key file => found.insertIfNew key file) found) ∅

/-- The declarations that a file refers to. -/
def targetsOf (r : References) (file : Path) : List NodeId := Index.values r.targets file.parts

/-- Records that a file refers to a declaration. -/
def record (r : References) (file : Path) (target : NodeId) : References :=
  { targets := Index.insert r.targets file.parts target
    files := r.files.insert target ((r.filesOf target).insertIfNew file.parts file) }

/-- The other side without a file at one declaration. -/
def eraseFile (files : Std.ExtTreeMap NodeId (PathMap Path)) (key : List Part) (target : NodeId) :
    Std.ExtTreeMap NodeId (PathMap Path) :=
  match files[target]? with
  | none => files
  | some found =>
    let rest := found.erase key
    if rest.isEmpty then files.erase target else files.insert target rest

/-- Drops all references from a file. -/
def removeFile (r : References) (file : Path) : References :=
  { targets := Index.dropKey r.targets file.parts
    files := (r.targetsOf file).foldl (fun files target => eraseFile files file.parts target)
      r.files }

/-- Records the edges that are no containment and carry the file they were seen in. -/
def recordEdges (r : References) (edges : List Edge) : References :=
  edges.foldl (fun r e =>
    match e.file with
    | some file => if e.kind == .contains then r else r.record file e.target
    | none => r) r

/-- The references that edges carry. -/
def ofEdges (edges : List Edge) : References := empty.recordEdges edges

/-- How many files refer to something. -/
def fileCount (r : References) : Nat := r.targets.size

end References

end CodeGraph

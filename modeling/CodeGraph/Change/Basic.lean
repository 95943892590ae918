import CodeGraph.Json.Declaration

/-!
# File changes

* `ChangeKind`, `Change`: what happened to one file.
* `Change.merge`: a newer change of a file meets a pending one.
-/

namespace CodeGraph

/-- What happened to a file. -/
inductive ChangeKind where
  | created
  | modified
  | deleted
  /-- The file came from another place. -/
  | renamed (source : Path)
  deriving DecidableEq, Repr

/-- A change of one file; for a rename, `path` is the new place. -/
structure Change where
  path : Path
  kind : ChangeKind
  deriving DecidableEq, Repr

namespace Change

/-- A new file. -/
def created (path : Path) : Change := ⟨path, .created⟩

/-- A file with new contents. -/
def modified (path : Path) : Change := ⟨path, .modified⟩

/-- A file that is gone. -/
def deleted (path : Path) : Change := ⟨path, .deleted⟩

/-- A file that moved. -/
def renamed (source path : Path) : Change := ⟨path, .renamed source⟩

/-- Whether the file is gone. -/
def isDeletion (c : Change) : Bool := c.kind == .deleted

/-- The old place of a file that moved. -/
def source? (c : Change) : Option Path :=
  match c.kind with
  | .renamed source => some source
  | _ => none

/-- What remains of a pending change when a newer one of the same file arrives. A deletion beats
anything; a rename stays one when its target is written again; else the newer change wins. -/
def merge (pending newer : Change) : Change :=
  match pending.kind, newer.kind with
  | _, .deleted => newer
  | .renamed _, .modified => pending
  | .renamed _, .created => pending
  | _, _ => newer

end Change

/-! ## The JSON form -/

/-- The written form of what happened. -/
def ChangeKind.toJson : ChangeKind → Json
  | created => .str "Created"
  | modified => .str "Modified"
  | deleted => .str "Deleted"
  | renamed source => .obj [("Renamed", .obj [("from", source.toJson)])]

/-- Reads the content of a rename. -/
def ChangeKind.renamedOfJson? (p : Parsed) : Option ChangeKind :=
  match p.record? ["from"] with
  | some [source] => (Parsed.required? Path.ofJson? source).map renamed
  | _ => none

/-- Reads what happened. -/
def ChangeKind.ofJson? (p : Parsed) : Option ChangeKind :=
  match p.choice? with
  | some ("Renamed", some content) => renamedOfJson? content
  | _ => p.plain? fun
    | "Created" => some created
    | "Modified" => some modified
    | "Deleted" => some deleted
    | _ => none

/-- The written form of a change. -/
def Change.toJson (c : Change) : Json := .obj [("path", c.path.toJson), ("kind", c.kind.toJson)]

/-- Reads a change. -/
def Change.ofJson? (p : Parsed) : Option Change :=
  match p.record? ["path", "kind"] with
  | some [path, kind] => do
    let path ← Parsed.required? Path.ofJson? path
    let kind ← Parsed.required? ChangeKind.ofJson? kind
    some { path, kind }
  | _ => none

end CodeGraph

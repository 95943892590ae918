import CodeGraph.Disk
import CodeGraph.Error
import CodeGraph.Graph.Store

/-!
# Repositories

A repository keeps a graph apart from the live store. One kind lives in memory only; the other is
also written to a snapshot file, in one piece and only if something has changed since.

* `Repository`: the graph, and the file behind it.
* `Repository.saveNodes`, `Repository.saveEdges`, `Repository.deleteNodesByFile`,
  `Repository.deleteEdgesByFile`: changing the graph.
* `SnapshotFile`: the contents of the file.
* `Repository.setUp`, `Repository.flush`: reading and writing the file.
-/

namespace CodeGraph

/-! ## Places -/

/-- The name of the snapshot file in the cache directory. -/
def snapshotName : Path := ⟨"graph.json"⟩

/-- The cache directory of a project. -/
def cachePath (root : Path) (cacheDir : String) : Path := root.join ⟨cacheDir⟩

/-- The snapshot file of a project. -/
def snapshotPath (root : Path) (cacheDir : String) : Path := (cachePath root cacheDir).join snapshotName

/-- The file that is written before it takes the place of the snapshot file. -/
def temporaryPath (p : Path) : Path := ⟨p.text ++ ".tmp"⟩

/-- Takes the cache directory of a project away, if there is one. -/
def clearCache (disk : Disk) (root : Path) (cacheDir : String) : Disk × Except Error Unit :=
  let cache := cachePath root cacheDir
  if disk.exists? cache then
    let (disk, result) := disk.removeDirs cache
    (disk, result.mapError fun _ => .io)
  else (disk, .ok ())

/-! ## The snapshot file -/

/-- The contents of a snapshot file. -/
structure SnapshotFile where
  version : String
  /-- When it was written. -/
  savedAt : String
  nodeCount : UInt64
  edgeCount : UInt64
  graph : Snapshot
  deriving DecidableEq, Repr

namespace SnapshotFile

/-- The version of the program that writes the file. -/
def currentVersion : String := "0.1.0"

/-- The contents for a graph that is saved at some time. -/
def ofGraph (savedAt : String) (graph : Snapshot) : SnapshotFile :=
  { version := currentVersion, savedAt, nodeCount := UInt64.ofNat graph.nodes.length
    edgeCount := UInt64.ofNat graph.edges.length, graph }

/-- The written form; the members of the graph stand among those of the file. -/
def toJson (f : SnapshotFile) : Json :=
  .obj ([("version", .str f.version), ("saved_at", .str f.savedAt),
    ("node_count", .word64 f.nodeCount), ("edge_count", .word64 f.edgeCount)] ++ f.graph.members)

/-- The names of the members that are not the graph's. -/
def fieldNames : List String := ["version", "saved_at", "node_count", "edge_count"]

/-- Reads the contents. -/
def ofJson? (p : Parsed) : Option SnapshotFile :=
  match p.flat? fieldNames Snapshot.fieldNames with
  | some ([version, savedAt, nodeCount, edgeCount], graph) => do
    let version ← Parsed.required? Parsed.text? version
    let savedAt ← Parsed.required? Parsed.text? savedAt
    let nodeCount ← Parsed.required? Parsed.word64? nodeCount
    let edgeCount ← Parsed.required? Parsed.word64? edgeCount
    let graph ← Snapshot.ofFields? graph
    some { version, savedAt, nodeCount, edgeCount, graph }
  | _ => none

/-- The text of the file. -/
def text (f : SnapshotFile) : String := f.toJson.pretty

/-- Reads the text of a file. -/
def ofText? (s : String) : Option SnapshotFile := (Json.parse? s).bind ofJson?

end SnapshotFile

/-! ## Repositories -/

/-- The file behind a repository. -/
structure Backing where
  path : Path
  /-- Whether the graph has changed since the file was read or written. -/
  dirty : Bool := false
  deriving DecidableEq, Repr

/-- A graph that is kept apart, with the file behind it, if any. -/
structure Repository where
  store : Store := {}
  backing : Option Backing := none

namespace Repository

/-- A repository in memory that holds a graph. -/
def inMemory (graph : Snapshot) : Repository := { store := Store.ofSnapshot graph }

/-- An empty repository over the snapshot file of a project. -/
def onDisk (root : Path) (cacheDir : String) : Repository :=
  { backing := some { path := snapshotPath root cacheDir } }

/-- What kind of repository it is. -/
def name (r : Repository) : String := if r.backing.isSome then "json" else "memory"

/-- The whole graph. -/
def graph (r : Repository) : Snapshot := r.store.snapshot

/-- Notes that the graph has changed. -/
def touch (r : Repository) : Repository :=
  { r with backing := r.backing.map fun b => { b with dirty := true } }

/-- Notes that the graph has changed, if it has. -/
def touchIf (r : Repository) (changed : Bool) : Repository := if changed then r.touch else r

/-- Adds declarations. -/
def saveNodes (r : Repository) (nodes : List Node) : Repository :=
  { r with store := r.store.addNodes nodes }.touch

/-- Adds relationships. -/
def saveEdges (r : Repository) (edges : List Edge) : Repository :=
  { r with store := r.store.addEdges edges }.touch

/-- Takes the declarations of a file out, with every edge that touches one of them. -/
def deleteNodesByFile (r : Repository) (path : Path) : Repository × Nat :=
  let (store, ids) := r.store.removeNodesByFile path
  let store := ids.foldl (fun s id => (s.removeEdgesByNode id).1) store
  ({ r with store }.touchIf (!ids.isEmpty), ids.length)

/-- Takes the relationships that were seen in a file out. -/
def deleteEdgesByFile (r : Repository) (path : Path) : Repository × Nat :=
  let (store, n) := r.store.removeEdgesByFile path
  ({ r with store }.touchIf (n != 0), n)

/-! ## Reading and writing -/

/-- Makes the directory of a file. -/
def prepare (disk : Disk) (file : Path) : Except Error Disk :=
  match file.parent? with
  | none => .ok disk
  | some dir =>
    (disk.makeDirs dir).mapError fun _ =>
      .during s!"creating cache directory {dir.text}" .system

/-- Reads the graph from the file, if there is one. -/
def readFile (r : Repository) (disk : Disk) (b : Backing) : Except Error Repository :=
  if disk.exists? b.path then
    match disk.read b.path with
    | .error _ => .error .io
    | .ok text =>
      match SnapshotFile.ofText? text with
      | some f => .ok { store := Store.ofSnapshot f.graph, backing := some { b with dirty := false } }
      | none => .error (.during s!"parsing snapshot {b.path.text}" (.text "ill-formed snapshot"))
  else .ok r

/-- Makes a repository ready: its directory is made and its file is read. -/
def setUp (r : Repository) (disk : Disk) : Disk × Repository × Except Error Unit :=
  match r.backing with
  | none => (disk, r, .ok ())
  | some b =>
    match prepare disk b.path with
    | .error e => (disk, r, .error e)
    | .ok disk =>
      match r.readFile disk b with
      | .error e => (disk, r, .error e)
      | .ok r => (disk, r, .ok ())

/-- The steps in which a file is written. -/
inductive SaveStep where
  | makeDirectory
  | writeFile
  | renameFile
  deriving DecidableEq, Repr

/-- A step that the system may refuse whatever the disk holds. -/
def attempt (refuses : SaveStep → Bool) (step : SaveStep) (action : Except Refusal Disk) :
    Except Refusal Disk :=
  if refuses step then .error .blocked else action

/-- Writes a text to a file in one piece: it is written beside it and then takes its place. The
disk is the one after the steps that were done. -/
def replaceFile (refuses : SaveStep → Bool) (disk : Disk) (file : Path) (text : String) :
    Disk × Except Error Unit :=
  let dir := file.parent?
  match attempt refuses .makeDirectory (dir.elim (.ok disk) disk.makeDirs) with
  | .error _ => (disk, .error .io)
  | .ok disk =>
    match attempt refuses .writeFile (disk.write (temporaryPath file) text) with
    | .error _ => (disk, .error .io)
    | .ok disk =>
      match attempt refuses .renameFile (disk.rename (temporaryPath file) file) with
      | .error _ => (disk, .error .io)
      | .ok disk => (disk, .ok ())

/-- Writes the graph to the file if it has changed. After a failure it still counts as changed. -/
def flushWith (refuses : SaveStep → Bool) (r : Repository) (disk : Disk) (now : String) :
    Disk × Repository × Except Error Unit :=
  match r.backing with
  | none => (disk, r, .ok ())
  | some b =>
    if b.dirty then
      match replaceFile refuses disk b.path (SnapshotFile.ofGraph now r.graph).text with
      | (disk, .ok ()) => (disk, { r with backing := some { b with dirty := false } }, .ok ())
      | (disk, .error e) => (disk, r, .error e)
    else (disk, r, .ok ())

/-- Writes the graph to the file if it has changed. -/
def flush (r : Repository) (disk : Disk) (now : String) : Disk × Repository × Except Error Unit :=
  r.flushWith (fun _ => false) disk now

end Repository

end CodeGraph

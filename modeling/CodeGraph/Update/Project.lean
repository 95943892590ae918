import CodeGraph.Change.Set
import CodeGraph.Config
import CodeGraph.Graph.References
import CodeGraph.Graph.Symbols
import CodeGraph.ProjectRoot
import CodeGraph.Update.Analysis
import CodeGraph.Update.Summary

/-!
# Projects

A project is a live graph with what is derived from it, and the repository that stores it. Handling
a file takes everything out that the graph holds for it, and puts in what the analyzer finds.

* `Project`, `Activity`: the live state.
* `Project.hydrate`: takes over the stored graph.
* `Project.removeFile`: takes the data of a file out.
* `Project.integrate`: puts the analyzer's output in, with the edges of other files that fit again.
-/

namespace CodeGraph

/-- What a project is doing. -/
inductive Activity where
  | stopped
  | watching
  | updating
  deriving DecidableEq, Repr

/-- The name of an activity. -/
def Activity.name : Activity → String
  | stopped => "Stopped"
  | watching => "Watching"
  | updating => "Updating"

/-- A live graph and its surroundings. -/
structure Project where
  root : ProjectRoot
  config : Config
  disk : Disk
  repository : Repository
  store : Store := {}
  references : References := {}
  symbols : Symbols := {}
  /-- Whether file events feed the project. -/
  watching : Bool := false
  /-- Whether a batch is under way. -/
  updating : Bool := false
  /-- Whether the batch under way is to stop before its next file. -/
  cancelled : Bool := false
  /-- How many batches have begun. -/
  sequence : Nat := 0
  /-- What the analyzer has been asked, in order. -/
  requests : List Request := []
  /-- How often the repository has been called. -/
  calls : Nat := 0
  /-- The notices that have not been drained. -/
  events : List UpdateEvent := []

namespace Project

/-- What the project is doing. -/
def activity (p : Project) : Activity :=
  if p.updating then .updating else if p.watching then .watching else .stopped

/-- Asks the batch under way to stop before its next file. -/
def cancel (p : Project) : Project := { p with cancelled := true }

/-- Publishes a notice. -/
def publish (p : Project) (e : UpdateEvent) : Project := { p with events := p.events ++ [e] }

/-- Takes the notices out. -/
def drain (p : Project) : Project × Drained := ({ p with events := [] }, .ofEvents p.events)

/-- A one-line description, with the name of the analyzer. -/
def describe (p : Project) (analyzer : String) : String :=
  String.ofList ("UpdateOrchestrator \x7b root: ".toList ++ Json.quote p.root.path.text ++
    ", analyzer: ".toList ++ Json.quote analyzer ++
    ", repository: ".toList ++ Json.quote p.repository.name ++
    s!", state: {p.activity.name} \x7d".toList)

/-! ## Calls of the repository -/

/-- Calls the repository, unless it refuses. -/
def call (w : World) (p : Project) (c : Call) (act : Project → Project × Except Cause Unit) :
    Project × Except Cause Unit :=
  let asked := { p with calls := p.calls + 1 }
  match w.refusal? p.calls c with
  | some message => (asked, .error (.text message))
  | none => act asked

/-- Changes the repository, which cannot fail by itself. -/
def change (f : Repository → Repository) (p : Project) : Project × Except Cause Unit :=
  ({ p with repository := f p.repository }, .ok ())

/-- The cause behind an error. -/
def causeOf (e : Error) : Cause := if e.isSystem then .system else .text e.message

/-- Reads or writes the file of the repository. -/
def withDisk (f : Repository → Disk → Disk × Repository × Except Error Unit) (p : Project) :
    Project × Except Cause Unit :=
  let (disk, repository, result) := f p.repository p.disk
  ({ p with disk, repository }, result.mapError causeOf)

/-! ## Taking over the stored graph -/

/-- The symbols of declarations, by qualified name. -/
def symbolsOf (nodes : List Node) : Symbols :=
  nodes.foldl (fun s n => s.insert n.qualifiedName n.id n.file) {}

/-- The project with a graph and what is derived from it. -/
def adopt (p : Project) (graph : Snapshot) : Project :=
  let store := Store.ofSnapshot graph
  { p with
    store
    references := References.ofEdges store.allEdges
    symbols := symbolsOf store.allNodes }

/-- Takes over the graph that the repository stores. -/
def hydrate (w : World) (p : Project) : Project × Except Error Unit :=
  match p.call w .setUp (withDisk fun r d => r.setUp d) with
  | (p, .error cause) =>
    (p, .error (.during s!"failed to initialize {p.repository.name} repository" cause))
  | (p, .ok ()) =>
    match p.call w .load (change id) with
    | (p, .error cause) => (p, .error (.during "failed to load persisted graph" cause))
    | (p, .ok ()) => (p.adopt p.repository.graph, .ok ())

/-! ## Removing a file -/

/-- What removing a file took out of the graph. -/
structure Removal where
  nodes : List NodeId
  /-- The edges of other files that touched one of the declarations. -/
  orphaned : List Edge
  edgeCount : Nat

/-- The edges that touch declarations that are gone: the store without them, the edges, and how
many were taken out. -/
def takeDangling (store : Store) (ids : List NodeId) :
    Store × Std.ExtTreeMap EdgeId Edge × Nat :=
  ids.foldl (fun (store, edges, n) id =>
    let touching := store.incomingEdges id ++ store.outgoingEdges id
    let (store, removed) := store.removeEdgesByNode id
    (store, touching.foldl (fun edges e => edges.insert e.id e) edges, n + removed)) (store, ∅, 0)

/-- Takes everything out that the live graph holds for a file. -/
def dropFile (p : Project) (path : Path) : Project × Removal :=
  let (store, nodes) := p.store.removeNodesByFile path
  let (store, own) := store.removeEdgesByFile path
  let (store, orphaned, dangling) := takeDangling store nodes
  ({ p with
     store
     references := p.references.removeFile path
     symbols := p.symbols.removeFile path },
   { nodes, orphaned := orphaned.values, edgeCount := own + dangling })

/-- Takes everything out that the repository holds for a file. -/
def forgetFile (w : World) (p : Project) (path : Path) : Project × Except Cause Unit :=
  match p.call w (.deleteNodes path) (change fun r => (r.deleteNodesByFile path).1) with
  | (p, .error cause) => (p, .error cause)
  | (p, .ok ()) => p.call w (.deleteEdges path) (change fun r => (r.deleteEdgesByFile path).1)

/-- Takes everything out that is held for a file, and counts it. -/
def removeFile (w : World) (p : Project) (s : Summary) (path : Path) :
    Project × Summary × Except Error Removal :=
  let (p, removal) := p.dropFile path
  let s := { s with
    nodesRemoved := s.nodesRemoved + removal.nodes.length
    edgesRemoved := s.edgesRemoved + removal.edgeCount }
  match p.forgetFile w path with
  | (p, .error cause) => (p, s, .error (.persistence path cause))
  | (p, .ok ()) => (p, s, .ok removal)

/-! ## Taking an analysis in -/

/-- What the analyzer is asked about a file. -/
def requestFor (p : Project) (path : Path) : Request :=
  { path
    location := p.root.absolute path
    symbols := p.symbols.toList
    ids := p.store.allNodes.map (·.id)
    includeLocals := p.config.includeLocals }

/-- An edge of a file's analysis, which was seen in that file unless it says otherwise. -/
def ownEdge (path : Path) (e : Edge) : Edge :=
  match e.file with
  | some _ => e
  | none => { e with file := some path }

/-- Records the references of a file's analysis. -/
def recordEdges (r : References) (path : Path) (edges : List Edge) : References :=
  edges.foldl (fun r e => if e.kind == .contains then r else r.record path e.target) r

/-- Puts the analysis of a file into the live graph. -/
def addOutput (p : Project) (path : Path) (nodes : List Node) (edges : List Edge)
    (symbols : List (String × NodeId)) : Project :=
  { p with
    store := (p.store.addNodes nodes).addEdges edges
    symbols := p.symbols.merge symbols path
    references := recordEdges p.references path edges }

/-- The edges, of those that lost an end, that have both ends again. -/
def restorable (p : Project) (orphaned : List Edge) : List Edge :=
  orphaned.filter fun e => p.store.hasNode e.source && p.store.hasNode e.target

/-- Stores the analysis of a file. -/
def saveOutput (w : World) (p : Project) (nodes : List Node) (edges : List Edge) :
    Project × Except Cause Unit :=
  match p.call w .saveNodes (change (·.saveNodes nodes)) with
  | (p, .error cause) => (p, .error cause)
  | (p, .ok ()) => p.call w .saveEdges (change (·.saveEdges edges))

/-- Takes the analysis of a file in, with the edges of other files that fit again, and counts it. -/
def integrate (w : World) (p : Project) (s : Summary) (path : Path) (output : Output)
    (orphaned : List Edge) : Project × Summary × Except Error Unit :=
  let edges := output.edges.map (ownEdge path)
  let p := p.addOutput path output.nodes edges output.symbols
  let restored := p.restorable orphaned
  let s := { s with
    nodesAdded := s.nodesAdded + output.nodes.length
    edgesAdded := s.edgesAdded + edges.length
    edgesRemoved := s.edgesRemoved - restored.length }
  let p := { p with store := p.store.addEdges restored }
  match p.saveOutput w output.nodes (edges ++ restored) with
  | (p, .error cause) => (p, s, .error (.persistence path cause))
  | (p, .ok ()) => (p, s, .ok ())

end Project

end CodeGraph

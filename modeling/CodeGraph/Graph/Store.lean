import CodeGraph.Graph.Index
import CodeGraph.Json.Declaration

/-!
# The graph store

Nodes and edges by identifier, with indices by endpoint and by file. An edge may name declarations
that are not in the store. Lists come in the order of identifiers.

* `Store`: the maps and indices.
* `Store.addNode`, `Store.removeNode`, `Store.removeNodesByFile`: changing nodes.
* `Store.addEdge`, `Store.removeEdge`, `Store.removeEdgesByFile`, `Store.removeEdgesByNode`:
  changing edges.
* `Store.snapshot`, `Store.ofSnapshot`, `Store.stats`: the whole.
-/

namespace CodeGraph

/-- A graph with its indices. -/
structure Store where
  nodes : Std.ExtTreeMap NodeId Node := ∅
  edges : Std.ExtTreeMap EdgeId Edge := ∅
  /-- The edges that leave a declaration. -/
  outgoing : Index NodeId EdgeId := ∅
  /-- The edges that reach a declaration. -/
  incoming : Index NodeId EdgeId := ∅
  /-- The declarations of a file. -/
  fileNodes : Index (List Part) NodeId := ∅
  /-- The edges seen in a file. -/
  fileEdges : Index (List Part) EdgeId := ∅

namespace Store

/-- The store that holds nothing. -/
def empty : Store := {}

/-! ## Nodes -/

/-- A declaration by identifier. -/
def node? (s : Store) (id : NodeId) : Option Node := s.nodes[id]?

/-- Whether a declaration is in the store. -/
def hasNode (s : Store) (id : NodeId) : Bool := s.nodes.contains id

/-- How many declarations there are. -/
def nodeCount (s : Store) : Nat := s.nodes.size

/-- All declarations. -/
def allNodes (s : Store) : List Node := s.nodes.values

/-- The declarations of a kind. -/
def nodesByKind (s : Store) (kind : NodeKind) : List Node := s.allNodes.filter (·.kind == kind)

/-- The declarations of a file. -/
def nodesByFile (s : Store) (path : Path) : List Node :=
  (Index.values s.fileNodes path.parts).filterMap s.node?

/-- The file index without the entry of a declaration that is about to be replaced by one of another
file. -/
def unindexReplacedNode (s : Store) (n : Node) : Index (List Part) NodeId :=
  match s.node? n.id with
  | some previous =>
    if previous.file.same n.file then s.fileNodes
    else Index.erase s.fileNodes previous.file.parts n.id
  | none => s.fileNodes

/-- Adds a declaration, in the place of any with the same identifier. -/
def addNode (s : Store) (n : Node) : Store :=
  { s with
    nodes := s.nodes.insert n.id n
    fileNodes := Index.insert (s.unindexReplacedNode n) n.file.parts n.id }

/-- Adds declarations in order. -/
def addNodes (s : Store) (ns : List Node) : Store := ns.foldl addNode s

/-- Takes a declaration out. Its edges stay. -/
def removeNode (s : Store) (id : NodeId) : Store × Option Node :=
  match s.node? id with
  | none => (s, none)
  | some n =>
    ({ s with
       nodes := s.nodes.erase id
       fileNodes := Index.erase s.fileNodes n.file.parts id }, some n)

/-- Takes declarations out, and says how many there were. -/
def removeNodes (s : Store) (ids : List NodeId) : Store × Nat :=
  ids.foldl (fun (s, n) id =>
    match s.removeNode id with
    | (s, some _) => (s, n + 1)
    | (s, none) => (s, n)) (s, 0)

/-- Takes the declarations of a file out, and lists them. -/
def removeNodesByFile (s : Store) (path : Path) : Store × List NodeId :=
  let ids := (Index.values s.fileNodes path.parts).filter s.hasNode
  ({ s with
     nodes := ids.foldl (fun nodes id => nodes.erase id) s.nodes
     fileNodes := Index.dropKey s.fileNodes path.parts }, ids)

/-! ## Edges -/

/-- A relationship by identifier. -/
def edge? (s : Store) (id : EdgeId) : Option Edge := s.edges[id]?

/-- How many relationships there are. -/
def edgeCount (s : Store) : Nat := s.edges.size

/-- All relationships. -/
def allEdges (s : Store) : List Edge := s.edges.values

/-- The relationships of a kind. -/
def edgesByKind (s : Store) (kind : EdgeKind) : List Edge := s.allEdges.filter (·.kind == kind)

/-- The edges that leave a declaration. -/
def outgoingEdges (s : Store) (id : NodeId) : List Edge :=
  (Index.values s.outgoing id).filterMap s.edge?

/-- The edges that reach a declaration. -/
def incomingEdges (s : Store) (id : NodeId) : List Edge :=
  (Index.values s.incoming id).filterMap s.edge?

/-- The edges seen in a file. -/
def edgesByFile (s : Store) (path : Path) : List Edge :=
  (Index.values s.fileEdges path.parts).filterMap s.edge?

/-- Whether an edge of a kind leads from one declaration to another. -/
def hasEdgeBetween (s : Store) (source target : NodeId) (kind : EdgeKind) : Bool :=
  (s.outgoingEdges source).any fun e => e.target == target && e.kind == kind

/-- The file index of edges with an entry for an edge. -/
def indexFile (index : Index (List Part) EdgeId) (e : Edge) : Index (List Part) EdgeId :=
  match e.file with
  | some file => Index.insert index file.parts e.id
  | none => index

/-- The file index of edges without the entry of an edge. -/
def unindexFile (index : Index (List Part) EdgeId) (e : Edge) : Index (List Part) EdgeId :=
  match e.file with
  | some file => Index.erase index file.parts e.id
  | none => index

/-- Whether two edges were seen in the same file. -/
def sameFile (a b : Edge) : Bool := a.file.map Path.parts == b.file.map Path.parts

/-- Adds an edge with its index entries, and leaves those of an edge that it replaces. -/
def insertEdge (s : Store) (e : Edge) : Store :=
  { s with
    edges := s.edges.insert e.id e
    outgoing := Index.insert s.outgoing e.source e.id
    incoming := Index.insert s.incoming e.target e.id
    fileEdges := indexFile s.fileEdges e }

/-- Drops the index entries of a replaced edge that its successor does not share. -/
def unindexReplaced (s : Store) (previous current : Edge) : Store :=
  { s with
    outgoing := if current.source == previous.source then s.outgoing
      else Index.erase s.outgoing previous.source previous.id
    incoming := if current.target == previous.target then s.incoming
      else Index.erase s.incoming previous.target previous.id
    fileEdges := if sameFile current previous then s.fileEdges
      else unindexFile s.fileEdges previous }

/-- Adds an edge, in the place of any with the same identifier. -/
def addEdge (s : Store) (e : Edge) : Store :=
  match s.edge? e.id with
  | some previous => (s.insertEdge e).unindexReplaced previous e
  | none => s.insertEdge e

/-- Adds edges in order. -/
def addEdges (s : Store) (es : List Edge) : Store := es.foldl addEdge s

/-- Takes an edge out. -/
def removeEdge (s : Store) (id : EdgeId) : Store × Option Edge :=
  match s.edge? id with
  | none => (s, none)
  | some e =>
    ({ s with
       edges := s.edges.erase id
       outgoing := Index.erase s.outgoing e.source id
       incoming := Index.erase s.incoming e.target id
       fileEdges := unindexFile s.fileEdges e }, some e)

/-- Takes edges out, and says how many there were. -/
def removeEdges (s : Store) (ids : List EdgeId) : Store × Nat :=
  ids.foldl (fun (s, n) id =>
    match s.removeEdge id with
    | (s, some _) => (s, n + 1)
    | (s, none) => (s, n)) (s, 0)

/-- Takes the edges seen in a file out. -/
def removeEdgesByFile (s : Store) (path : Path) : Store × Nat :=
  s.removeEdges (Index.values s.fileEdges path.parts)

/-- Takes the edges that leave or reach a declaration out. -/
def removeEdgesByNode (s : Store) (id : NodeId) : Store × Nat :=
  s.removeEdges ((Index.bucket s.outgoing id).insertMany (Index.values s.incoming id)).toList

/-! ## The whole graph -/

/-- A copy of the content, in the order of identifiers. -/
def snapshot (s : Store) : Snapshot := ⟨s.allNodes, s.allEdges⟩

/-- The store with the content of a snapshot; of two entries with one identifier the last counts. -/
def ofSnapshot (snapshot : Snapshot) : Store :=
  (empty.addNodes snapshot.nodes).addEdges snapshot.edges

/-- Counts of a graph's content. -/
structure Stats where
  nodeCount : Nat
  edgeCount : Nat
  fileCount : Nat
  /-- How many declarations of each kind there are; kinds without any are left out. -/
  nodesByKind : List (NodeKind × Nat)
  edgesByKind : List (EdgeKind × Nat)
  deriving DecidableEq, Repr

/-- The counts of the kinds that occur, in the order given. -/
def countKinds {κ : Type} [BEq κ] (all : List κ) (present : List κ) : List (κ × Nat) :=
  (all.map fun k => (k, present.count k)).filter fun c => c.2 != 0

/-- The counts of the content. -/
def stats (s : Store) : Stats :=
  { nodeCount := s.nodeCount
    edgeCount := s.edgeCount
    fileCount := s.fileNodes.size
    nodesByKind := countKinds NodeKind.all (s.allNodes.map (·.kind))
    edgesByKind := countKinds EdgeKind.all (s.allEdges.map (·.kind)) }

/-- The written form of counts. -/
def Stats.toJson (s : Stats) : Json :=
  .obj [("node_count", .num s.nodeCount), ("edge_count", .num s.edgeCount),
    ("file_count", .num s.fileCount),
    ("nodes_by_kind", .obj (s.nodesByKind.map fun c => (c.1.name, .num c.2))),
    ("edges_by_kind", .obj (s.edgesByKind.map fun c => (c.1.name, .num c.2)))]

/-- A one-line description. -/
def describe (s : Store) : String :=
  s!"GraphStore \x7b node_count: {s.nodeCount}, edge_count: {s.edgeCount} \x7d"

end Store

end CodeGraph

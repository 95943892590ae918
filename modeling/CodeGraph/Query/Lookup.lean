import CodeGraph.Graph.Store
import CodeGraph.Query.Direction
import CodeGraph.Query.Match
import CodeGraph.Query.Order
import CodeGraph.Query.Page

/-!
# Lookup, search and one-step queries

* `Store.search`: declarations by name.
* `Store.children`, `Store.ancestors`: one level down and all levels up the containment.
* `Store.relationships`: the edges around a declaration that are no containment.
* `Store.listByKind`: the declarations of a kind, within a scope.
* `Store.containerChain`: the successive containers of a declaration.
-/

namespace CodeGraph

namespace Store

/-! ## Containment -/

/-- The targets of a declaration's containment edges. -/
def contained (s : Store) (id : NodeId) : List NodeId :=
  ((s.outgoingEdges id).filter (·.kind == .contains)).map (·.target)

/-- The source of the first containment edge into a declaration. -/
def container? (s : Store) (id : NodeId) : Option NodeId :=
  ((s.incomingEdges id).find? (·.kind == .contains)).map (·.source)

/-- The successive containers of a declaration, up to the first that was met before. -/
def containersFrom (s : Store) : (fuel : Nat) → Std.ExtTreeSet NodeId → NodeId → List NodeId
  | 0, _, _ => []
  | fuel + 1, visited, current =>
    match s.container? current with
    | none => []
    | some parent =>
      if visited.contains parent then []
      else parent :: containersFrom s fuel (visited.insert parent) parent

/-- The successive containers of a declaration, nearest first. Each is the source of an edge, which
bounds their number. -/
def containerChain (s : Store) (id : NodeId) : List NodeId :=
  s.containersFrom (s.edgeCount + 1) (Std.ExtTreeSet.ofList [id]) id

/-- The declarations above one, outermost first; `none` if it does not exist. -/
def ancestors (s : Store) (id : NodeId) : Option (List Node) :=
  if s.hasNode id then
    some (((s.containerChain id).takeWhile s.hasNode).filterMap s.node?).reverse
  else none

/-- The declarations directly inside one, in source order; `none` if it does not exist. -/
def children (s : Store) (id : NodeId) (kind : Option NodeKind) (limit : Nat) :
    Option (Page Node) :=
  if s.hasNode id then
    let found := ((s.contained id).filterMap s.node?).filter fun n => kind.all (n.kind == ·)
    some (Page.ofList (sortBy sourceOrder found) limit)
  else none

/-- The identifiers reached from a queue through containment, but for `root`. -/
def descendantsFrom (s : Store) (root : NodeId) :
    (fuel : Nat) → Std.ExtTreeSet NodeId → List NodeId → Std.ExtTreeSet NodeId
  | 0, seen, _ => seen
  | _, seen, [] => seen
  | fuel + 1, seen, current :: queue =>
    let (seen, queue) := (s.contained current).foldl (fun (seen, queue) child =>
      if child == root || seen.contains child then (seen, queue)
      else (seen.insert child, queue ++ [child])) (seen, queue)
    descendantsFrom s root fuel seen queue

/-- The identifiers inside a declaration, at any depth. Each is the target of an edge, which bounds
their number. -/
def descendants (s : Store) (root : NodeId) : Std.ExtTreeSet NodeId :=
  s.descendantsFrom root (s.edgeCount + 1) ∅ [root]

/-! ## Search -/

/-- The declarations whose name or qualified name satisfies a search. -/
def search (s : Store) (q : SearchQuery) : Page Node :=
  let candidates := match q.kind with
    | some kind => s.nodesByKind kind
    | none => s.allNodes
  let found := candidates.filter fun n => q.accepts n.name || q.accepts n.qualifiedName
  Page.ofList (sortBy nameOrder found) q.limit

/-- The declarations of a kind, if wanted only those inside a scope; `none` if the scope does not
exist. -/
def listByKind (s : Store) (kind : NodeKind) (scope : Option NodeId) (limit : Nat) :
    Option (Page Node) :=
  match scope with
  | none => some (Page.ofList (sortBy nameOrder (s.nodesByKind kind)) limit)
  | some scope =>
    if s.hasNode scope then
      let inside := s.descendants scope
      let found := (s.nodesByKind kind).filter fun n => inside.contains n.id
      some (Page.ofList (sortBy nameOrder found) limit)
    else none

/-- A one-line description of the queries over a store. -/
def describeQueries (s : Store) : String := s!"Navigator \x7b store: {s.describe} \x7d"

end Store

/-! ## Relationships -/

/-- An edge with the declaration at its far end, if that is in the graph. -/
structure RelatedEdge where
  edge : Edge
  node : Option Node
  deriving DecidableEq, Repr

/-- The edges around a declaration. -/
structure Relationships where
  node : Node
  outgoing : Page RelatedEdge
  incoming : Page RelatedEdge
  deriving DecidableEq, Repr

/-- The edges around a declaration that are no containment, by place; `none` if it does not
exist. -/
def Store.relationships (s : Store) (id : NodeId) (kind : Option EdgeKind)
    (direction : EdgeDirection) (limit : Nat) : Option Relationships :=
  (s.node? id).map fun node =>
    let wanted (e : Edge) : Bool := e.kind != .contains && kind.all (e.kind == ·)
    let page (edges : List Edge) (far : Edge → NodeId) : Page RelatedEdge :=
      let related := (edges.filter wanted).map fun e => { edge := e, node := s.node? (far e) }
      Page.ofList (sortBy (fun a b => siteOrder a.edge b.edge) related) limit
    { node
      outgoing := page (if direction == .incoming then [] else s.outgoingEdges id) (·.target)
      incoming := page (if direction == .outgoing then [] else s.incomingEdges id) (·.source) }

/-! ## The JSON form -/

/-- The written form of a page of declarations. -/
def nodePageToJson (p : Page Node) : Json := p.toJson Node.toJson

/-- The written form of an edge and its far end. -/
def RelatedEdge.toJson (r : RelatedEdge) : Json :=
  .obj [("edge", r.edge.toJson), ("node", Json.ofOption Node.toJson r.node)]

/-- The written form of the edges around a declaration. -/
def Relationships.toJson (r : Relationships) : Json :=
  .obj [("node", r.node.toJson), ("outgoing", r.outgoing.toJson RelatedEdge.toJson),
    ("incoming", r.incoming.toJson RelatedEdge.toJson)]

end CodeGraph

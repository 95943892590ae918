import CodeGraph.Query.Lookup

/-!
# Walks over several edges

Each walk keeps the set of identifiers it has met, so it ends on cyclic graphs too.

* `Store.callGraph`: callers or callees, breadth first, up to five levels.
* `Store.inheritance`: base or derived types, depth first.
* `Store.dependencyWalk`: dependencies or dependents, breadth first.
-/

namespace CodeGraph

/-- Which end of an edge a walk goes to. -/
inductive Towards where
  | targets
  | sources
  deriving DecidableEq, Repr

/-- A list without repetitions of a key between neighbours. -/
def dedupNeighbours {α : Type} (same : α → α → Bool) : List α → List α
  | [] => []
  | a :: rest =>
    match dedupNeighbours same rest with
    | [] => [a]
    | b :: tail => if same a b then a :: tail else a :: b :: tail

/-- The far ends of a declaration's edges of some kinds, with the kind, ordered by the kind's name
and then by identifier. -/
def Store.neighbors (s : Store) (id : NodeId) (kinds : List EdgeKind) (towards : Towards) :
    List (NodeId × EdgeKind) :=
  let edges := match towards with
    | .targets => s.outgoingEdges id
    | .sources => s.incomingEdges id
  let ends := (edges.filter fun e => kinds.contains e.kind).map fun e =>
    match towards with
    | .targets => (e.target, e.kind)
    | .sources => (e.source, e.kind)
  dedupNeighbours (fun a b => a.1 == b.1)
    (sortBy (fun a b => (compare a.2.name b.2.name).then (compare a.1 b.1)) ends)

/-! ## Calls -/

/-- A declaration met by a call walk, and how many calls away it is. -/
structure CallEntry where
  node : Node
  depth : Nat
  deriving DecidableEq, Repr

/-- Callers or callees of a declaration. -/
structure CallGraph where
  root : Node
  entries : List CallEntry
  maxDepth : Nat
  /-- Calls remained beyond the greatest depth. -/
  depthLimited : Bool
  /-- The limit ended the walk. -/
  truncated : Bool
  deriving DecidableEq, Repr

/-- The greatest depth of a call walk. -/
def maxCallDepth : Nat := 5

/-- A call walk under way. -/
structure CallWalk where
  queue : List (NodeId × Nat)
  visited : Std.ExtTreeSet NodeId
  entries : List CallEntry := []
  depthLimited : Bool := false
  truncated : Bool := false

namespace CallWalk

/-- Meets one neighbour at a depth. An identifier that is met counts as visited, also if it names no
declaration; the first declaration beyond the limit ends the walk. -/
def meet (s : Store) (limit depth : Nat) (w : CallWalk) (id : NodeId) : CallWalk :=
  if w.truncated || w.visited.contains id then w
  else
    let w := { w with visited := w.visited.insert id }
    match s.node? id with
    | none => w
    | some node =>
      if limit ≤ w.entries.length then { w with truncated := true }
      else { w with entries := w.entries ++ [⟨node, depth⟩], queue := w.queue ++ [(id, depth)] }

/-- Goes on until the queue is empty or the limit is reached. -/
def run (s : Store) (towards : Towards) (maxDepth limit : Nat) : (fuel : Nat) → CallWalk → CallWalk
  | 0, w => w
  | fuel + 1, w =>
    if w.truncated then w
    else match w.queue with
      | [] => w
      | (current, level) :: queue =>
        let next := (s.neighbors current [.calls] towards).map (·.1)
        let w := { w with queue }
        run s towards maxDepth limit fuel <|
          if level == maxDepth then
            { w with depthLimited := w.depthLimited || next.any fun id => !w.visited.contains id }
          else next.foldl (meet s limit (level + 1)) w

end CallWalk

/-- Callees (`targets`) or callers (`sources`) of a declaration, breadth first; `none` if it does not
exist. Every declaration enters the queue once, which bounds the walk. -/
def Store.callGraph (s : Store) (towards : Towards) (id : NodeId) (depth limit : Nat) :
    Option CallGraph :=
  (s.node? id).map fun root =>
    let maxDepth := min (max depth 1) maxCallDepth
    let start : CallWalk := { queue := [(id, 0)], visited := Std.ExtTreeSet.ofList [id] }
    let w := CallWalk.run s towards maxDepth limit (s.nodeCount + 2) start
    { root, entries := w.entries, maxDepth, depthLimited := w.depthLimited,
      truncated := w.truncated }

/-! ## Inheritance -/

/-- A type met by an inheritance walk. -/
structure InheritanceEntry where
  node : Node
  relationship : EdgeKind
  depth : Nat
  deriving DecidableEq, Repr

/-- Base or derived types of a type. -/
structure Inheritance where
  root : Node
  direction : HierarchyDirection
  entries : List InheritanceEntry
  deriving DecidableEq, Repr

/-- A type that an inheritance walk has still to look at. -/
structure InheritanceStep where
  id : NodeId
  relationship : EdgeKind
  depth : Nat
  deriving DecidableEq, Repr

/-- The neighbours not met before, which are then met. -/
def pickFresh (visited : Std.ExtTreeSet NodeId) :
    List (NodeId × EdgeKind) → Std.ExtTreeSet NodeId × List (NodeId × EdgeKind)
  | [] => (visited, [])
  | n :: rest =>
    if visited.contains n.1 then pickFresh visited rest
    else
      let (visited, fresh) := pickFresh (visited.insert n.1) rest
      (visited, n :: fresh)

/-- Puts the neighbours not met before on the stack, the first on top. -/
def stackFresh (visited : Std.ExtTreeSet NodeId) (stack : List InheritanceStep)
    (next : List (NodeId × EdgeKind)) (depth : Nat) :
    Std.ExtTreeSet NodeId × List InheritanceStep :=
  let (visited, fresh) := pickFresh visited next
  (visited, fresh.map (fun n => ⟨n.1, n.2, depth⟩) ++ stack)

/-- The kinds of edge that an inheritance walk follows. -/
def inheritanceKinds : List EdgeKind := [.inherits, .implements]

/-- The entries met from a stack on, in preorder. -/
def Store.inheritanceFrom (s : Store) (towards : Towards) (maxDepth : Nat) :
    (fuel : Nat) → Std.ExtTreeSet NodeId → List InheritanceStep → List InheritanceEntry
  | 0, _, _ => []
  | _, _, [] => []
  | fuel + 1, visited, step :: stack =>
    match s.node? step.id with
    | none => inheritanceFrom s towards maxDepth fuel visited stack
    | some node =>
      let (visited, stack) :=
        if step.depth < maxDepth then
          stackFresh visited stack (s.neighbors step.id inheritanceKinds towards) (step.depth + 1)
        else (visited, stack)
      ⟨node, step.relationship, step.depth⟩ ::
        inheritanceFrom s towards maxDepth fuel visited stack

/-- Where an inheritance walk goes. -/
def HierarchyDirection.towards : HierarchyDirection → Towards
  | ancestors => .targets
  | descendants => .sources

/-- Base or derived types, up to a depth, in depth-first preorder; `none` if the type does not
exist. Every identifier is stacked once and is the end of an edge, which bounds the walk. -/
def Store.inheritance (s : Store) (id : NodeId) (direction : HierarchyDirection) (depth : Nat) :
    Option Inheritance :=
  (s.node? id).map fun root =>
    let (visited, stack) :=
      if 0 < depth then
        stackFresh (Std.ExtTreeSet.ofList [id]) []
          (s.neighbors id inheritanceKinds direction.towards) 1
      else (Std.ExtTreeSet.ofList [id], [])
    { root, direction
      entries := s.inheritanceFrom direction.towards depth (s.edgeCount + 1) visited stack }

/-! ## Dependencies -/

/-- A declaration met by a dependency walk, and through which it was met. -/
structure DependencyEntry where
  node : Node
  depth : Nat
  via : Option NodeId
  deriving DecidableEq, Repr

/-- Dependencies or dependents of a declaration. -/
structure Dependencies where
  root : Node
  transitive : Bool
  entries : List DependencyEntry
  truncated : Bool
  deriving DecidableEq, Repr

/-- A declaration that a dependency walk has still to look at. -/
structure DependencyStep where
  id : NodeId
  depth : Nat
  via : Option NodeId
  deriving DecidableEq, Repr

/-- Puts the neighbours not met before at the end of the queue. -/
def queueFresh (visited : Std.ExtTreeSet NodeId) (queue : List DependencyStep)
    (next : List (NodeId × EdgeKind)) (depth : Nat) (via : Option NodeId) :
    Std.ExtTreeSet NodeId × List DependencyStep :=
  let (visited, fresh) := pickFresh visited next
  (visited, queue ++ fresh.map fun n => ⟨n.1, depth, via⟩)

/-- The entries met from a queue on, and whether the limit ended the walk. -/
def Store.dependenciesFrom (s : Store) (towards : Towards) (transitive : Bool) :
    (fuel limit : Nat) → Std.ExtTreeSet NodeId → List DependencyStep →
      List DependencyEntry × Bool
  | 0, _, _, _ => ([], false)
  | _, _, _, [] => ([], false)
  | fuel + 1, limit, visited, step :: queue =>
    match s.node? step.id with
    | none => dependenciesFrom s towards transitive fuel limit visited queue
    | some node =>
      match limit with
      | 0 => ([], true)
      | limit + 1 =>
        let (visited, queue) :=
          if transitive then
            queueFresh visited queue (s.neighbors step.id [.dependsOn] towards) (step.depth + 1)
              (some step.id)
          else (visited, queue)
        let (entries, truncated) := dependenciesFrom s towards transitive fuel limit visited queue
        (⟨node, step.depth, step.via⟩ :: entries, truncated)

/-- What a declaration depends on (`targets`) or what depends on it (`sources`), breadth first;
`none` if it does not exist. Every identifier is queued once and is the end of an edge, which bounds
the walk. -/
def Store.dependencyWalk (s : Store) (towards : Towards) (id : NodeId) (transitive : Bool)
    (limit : Nat) : Option Dependencies :=
  (s.node? id).map fun root =>
    let (visited, queue) :=
      queueFresh (Std.ExtTreeSet.ofList [id]) [] (s.neighbors id [.dependsOn] towards) 1 none
    let (entries, truncated) :=
      s.dependenciesFrom towards transitive (s.edgeCount + 1) limit visited queue
    { root, transitive, entries, truncated }

/-! ## The JSON form -/

/-- The written form of a call walk. -/
def CallGraph.toJson (g : CallGraph) : Json :=
  .obj [("root", g.root.toJson),
    ("entries", Json.ofList
      (fun e => .obj [("node", e.node.toJson), ("depth", .num e.depth)]) g.entries),
    ("max_depth", .num g.maxDepth), ("depth_limited", .bool g.depthLimited),
    ("truncated", .bool g.truncated)]

/-- The written form of an inheritance walk. -/
def Inheritance.toJson (i : Inheritance) : Json :=
  .obj [("root", i.root.toJson), ("direction", .str i.direction.name),
    ("entries", Json.ofList
      (fun e => .obj [("node", e.node.toJson), ("relationship", e.relationship.toJson),
        ("depth", .num e.depth)]) i.entries)]

/-- The written form of a dependency walk. -/
def Dependencies.toJson (d : Dependencies) : Json :=
  .obj [("root", d.root.toJson), ("transitive", .bool d.transitive),
    ("entries", Json.ofList
      (fun e => .obj [("node", e.node.toJson), ("depth", .num e.depth),
        ("via", Json.ofOption Json.str e.via)]) d.entries),
    ("truncated", .bool d.truncated)]

end CodeGraph

import CodeGraph.Query.Lookup

/-!
# Containment trees

* `Outline`: a declaration with those inside it.
* `assemble`: outlines from the declarations directly inside each.
* `Store.fileOutline`: the declarations of one file.
* `Store.tree`: the containment below a declaration, or below all that have no container.
-/

namespace CodeGraph

/-- A declaration with the outlines of those inside it, in source order. -/
inductive Outline where
  | mk (node : Node) (children : List Outline)
  deriving Repr

namespace Outline

/-- The declaration at the top. -/
def node : Outline → Node
  | mk node _ => node

/-- The outlines below. -/
def children : Outline → List Outline
  | mk _ children => children

mutual

/-- How many declarations an outline holds. -/
def size : Outline → Nat
  | mk _ children => 1 + sizes children

/-- How many declarations several outlines hold. -/
def sizes : List Outline → Nat
  | [] => 0
  | t :: rest => size t + sizes rest

end

mutual

/-- The declarations of an outline in preorder, each with its level and the size of its outline. -/
def rows (level : Nat) : Outline → List (Nat × NodeId × Nat)
  | mk node children => (level, node.id, size (mk node children)) :: rowsOf (level + 1) children

/-- The declarations of several outlines in preorder. -/
def rowsOf (level : Nat) : List Outline → List (Nat × NodeId × Nat)
  | [] => []
  | t :: rest => rows level t ++ rowsOf level rest

end

mutual

/-- The written form of an outline. -/
def toJson : Outline → Json
  | mk node children => .obj [("node", node.toJson), ("children", .arr (toJsons children))]

/-- The written form of several outlines. -/
def toJsons : List Outline → List Json
  | [] => []
  | t :: rest => toJson t :: toJsons rest

end

end Outline

/-- Adds a declaration to those inside another. -/
def addInside (inside : Std.ExtTreeMap NodeId (List Node)) (parent : NodeId) (n : Node) :
    Std.ExtTreeMap NodeId (List Node) :=
  inside.insert parent (inside[parent]?.getD [] ++ [n])

/-! ## Assembly -/

/-- An assembly of outlines under way. -/
structure Assembly where
  /-- What is to do next: to look into a declaration, or, where it is marked, to finish it. -/
  stack : List (NodeId × Bool)
  /-- What was looked into. -/
  expanded : Std.ExtTreeSet NodeId := ∅
  /-- The declarations that are not finished. -/
  nodes : Std.ExtTreeMap NodeId Node
  /-- The outlines that stand in no other yet. -/
  built : Std.ExtTreeMap NodeId Outline := ∅

namespace Assembly

/-- Takes the outlines of some declarations out of those that are built. -/
def take : List NodeId → Std.ExtTreeMap NodeId Outline →
    List Outline × Std.ExtTreeMap NodeId Outline
  | [], built => ([], built)
  | id :: ids, built =>
    let (taken, rest) := take ids (built.erase id)
    (built[id]?.toList ++ taken, rest)

/-- Puts what is inside a declaration on the stack, and below it that the declaration is to finish.
What was looked into before is left out. -/
def expand (inside : Std.ExtTreeMap NodeId (List Node)) (id : NodeId) (w : Assembly) : Assembly :=
  if w.expanded.contains id then w
  else
    let expanded := w.expanded.insert id
    let within := ((inside[id]?.getD []).map (·.id)).filter fun child => !expanded.contains child
    { w with expanded, stack := within.map (·, false) ++ (id, true) :: w.stack }

/-- Builds the outline of a declaration from those of what is inside it. -/
def finish (inside : Std.ExtTreeMap NodeId (List Node)) (id : NodeId) (w : Assembly) : Assembly :=
  let (children, built) := take ((inside[id]?.getD []).map (·.id)) w.built
  match w.nodes[id]? with
  | some n => { w with nodes := w.nodes.erase id, built := built.insert id (.mk n children) }
  | none => { w with built }

/-- Goes on until the stack is empty. -/
def run (inside : Std.ExtTreeMap NodeId (List Node)) : (fuel : Nat) → Assembly → Assembly
  | 0, w => w
  | fuel + 1, w =>
    match w.stack with
    | [] => w
    | (id, true) :: stack => run inside fuel (finish inside id { w with stack })
    | (id, false) :: stack => run inside fuel (expand inside id { w with stack })

end Assembly

/-- The declarations inside each in source order. -/
def inSourceOrder (inside : Std.ExtTreeMap NodeId (List Node)) :
    Std.ExtTreeMap NodeId (List Node) :=
  inside.map fun _ ns => sortBy sourceOrder ns

/-- The declarations that are inside others. -/
def listed (inside : Std.ExtTreeMap NodeId (List Node)) : List Node :=
  inside.toList.flatMap (·.2)

/-- An assembly before its first turn. -/
def Assembly.start (roots : List Node) (inside : Std.ExtTreeMap NodeId (List Node)) : Assembly :=
  { stack := roots.map fun n => (n.id, false)
    nodes := (listed inside).foldl (fun nodes n => nodes.insertIfNew n.id n)
      (Std.ExtTreeMap.ofList (roots.map fun n => (n.id, n))) }

/-- The outlines of declarations, given those directly inside each, built from the bottom up. A
declaration is looked into as a root and for each list that it stands in, and finished once, which
bounds the run. -/
def assemble (roots : List Node) (inside : Std.ExtTreeMap NodeId (List Node)) : List Outline :=
  let inside := inSourceOrder inside
  let w := Assembly.run inside (2 * (roots.length + (listed inside).length))
    (Assembly.start roots inside)
  (Assembly.take (roots.map (·.id)) w.built).1

/-! ## One file -/

/-- The declarations of a file. -/
structure FileOutline where
  file : Path
  roots : List Outline
  total : Nat
  deriving Repr

/-- The nearest container of a declaration among given ones. -/
def Store.containerAmong? (s : Store) (among : Std.ExtTreeSet NodeId) (id : NodeId) :
    Option NodeId :=
  (s.containerChain id).find? fun parent => among.contains parent

/-- The declarations of a file, each under its nearest container in the file; `none` if the file has
none. -/
def Store.fileOutline (s : Store) (path : Path) : Option FileOutline :=
  match s.nodesByFile path with
  | [] => none
  | nodes =>
    let among := Std.ExtTreeSet.ofList (nodes.map (·.id))
    let placed := nodes.map fun n => (n, s.containerAmong? among n.id)
    let roots := (placed.filter (·.2.isNone)).map (·.1)
    let inside := placed.foldl (fun inside (n, parent?) =>
      match parent? with
      | some parent => addInside inside parent n
      | none => inside) ∅
    some { file := path
           roots := assemble (sortBy sourceOrder roots) inside
           total := nodes.length }

/-! ## From the top -/

/-- A containment forest. -/
structure ContainmentTree where
  roots : List Outline
  total : Nat
  maxDepth : Nat
  depthReached : Nat
  deriving Repr

/-- A containment walk under way. -/
structure TreeWalk where
  queue : List (NodeId × Nat)
  visited : Std.ExtTreeSet NodeId
  inside : Std.ExtTreeMap NodeId (List Node) := ∅
  depthReached : Nat := 0

namespace TreeWalk

/-- Meets one declaration inside another. -/
def meet (s : Store) (kind : Option NodeKind) (parent : NodeId) (depth : Nat) (w : TreeWalk)
    (id : NodeId) : TreeWalk :=
  match s.node? id with
  | none => w
  | some child =>
    if !kind.all (child.kind == ·) || w.visited.contains id then w
    else
      { w with
        visited := w.visited.insert id
        queue := w.queue ++ [(id, depth)]
        inside := addInside w.inside parent child }

/-- Goes on until the queue is empty. -/
def run (s : Store) (maxDepth : Nat) (kind : Option NodeKind) : (fuel : Nat) → TreeWalk → TreeWalk
  | 0, w => w
  | fuel + 1, w =>
    match w.queue with
    | [] => w
    | (current, level) :: queue =>
      let w := { w with queue, depthReached := max w.depthReached level }
      run s maxDepth kind fuel <|
        if maxDepth ≤ level then w
        else (s.contained current).foldl (meet s kind current (level + 1)) w

end TreeWalk

/-- The declarations without a container that exists. -/
def Store.topNodes (s : Store) : List Node :=
  s.allNodes.filter fun n => (s.container? n.id).all fun parent => !s.hasNode parent

/-- The containment below a declaration, or below all without a container, down to a depth. Of a
kind other than the given one only the roots are kept. `none` if the root does not exist. Every
declaration is queued once, which bounds the walk. -/
def Store.tree (s : Store) (root : Option NodeId) (maxDepth : Nat) (kind : Option NodeKind) :
    Option ContainmentTree :=
  let roots? := match root with
    | some id => (s.node? id).map fun n => [n]
    | none => some s.topNodes
  roots?.map fun roots =>
    let roots := sortBy fileOrder roots
    let ids := roots.map (·.id)
    let start : TreeWalk :=
      { queue := ids.map fun id => (id, 0), visited := Std.ExtTreeSet.ofList ids }
    let w := TreeWalk.run s maxDepth kind (s.nodeCount + 1) start
    { roots := assemble roots w.inside
      total := w.visited.size
      maxDepth
      depthReached := w.depthReached }

/-! ## The JSON form -/

/-- The written form of a file's outline. -/
def FileOutline.toJson (f : FileOutline) : Json :=
  .obj [("file_path", f.file.toJson), ("roots", Json.ofList Outline.toJson f.roots),
    ("total_count", .num f.total)]

/-- The written form of a containment forest. -/
def ContainmentTree.toJson (t : ContainmentTree) : Json :=
  .obj [("roots", Json.ofList Outline.toJson t.roots), ("total_nodes", .num t.total),
    ("max_depth", .num t.maxDepth), ("depth_reached", .num t.depthReached)]

end CodeGraph

import CodeGraph.Config
import CodeGraph.ProjectRoot
import CodeGraph.Query.Outline
import CodeGraph.Query.Walk

/-!
# Questions about a stored graph

* `Question`: what can be asked. A question without a limit takes the configured one.
* `Question.answer`: the answer, `null` for what is not in the graph.
-/

namespace CodeGraph

/-- What can be asked about a graph. -/
inductive Question where
  | search (text : String) (kind : Option NodeKind) (mode : MatchMode) (caseSensitive : Bool)
      (limit : Option Nat)
  | node (id : NodeId)
  | children (id : NodeId) (kind : Option NodeKind) (limit : Option Nat)
  | ancestors (id : NodeId)
  | relationships (id : NodeId) (kind : Option EdgeKind) (direction : EdgeDirection)
      (limit : Option Nat)
  /-- Those who call a declaration, or those that it calls. -/
  | calls (towards : Towards) (id : NodeId) (depth : Nat) (limit : Option Nat)
  | inheritance (id : NodeId) (direction : HierarchyDirection) (depth : Nat)
  | list (kind : NodeKind) (scope : Option NodeId) (limit : Option Nat)
  /-- What depends on a declaration, or what it depends on. -/
  | dependencies (towards : Towards) (id : NodeId) (transitive : Bool) (limit : Option Nat)
  | file (path : Path)
  | tree (start : Option NodeId) (depth : Nat) (kind : Option NodeKind)
  | stats
  deriving Repr

/-- The answer to a question about the graph of a project. -/
def Question.answer (root : ProjectRoot) (config : Config) (s : Store) : Question → Json
  | search text kind mode caseSensitive limit =>
    nodePageToJson (s.search { text, kind, mode, caseSensitive, limit := orDefault limit })
  | node id => Json.ofOption Node.toJson (s.node? id)
  | children id kind limit =>
    Json.ofOption nodePageToJson (s.children id kind (orDefault limit))
  | ancestors id => Json.ofOption (Json.ofList Node.toJson) (s.ancestors id)
  | relationships id kind direction limit =>
    Json.ofOption Relationships.toJson (s.relationships id kind direction (orDefault limit))
  | calls towards id depth limit =>
    Json.ofOption CallGraph.toJson (s.callGraph towards id depth (orDefault limit))
  | inheritance id direction depth =>
    Json.ofOption Inheritance.toJson (s.inheritance id direction depth)
  | list kind scope limit =>
    Json.ofOption nodePageToJson (s.listByKind kind scope (orDefault limit))
  | dependencies towards id transitive limit =>
    Json.ofOption Dependencies.toJson (s.dependencyWalk towards id transitive (orDefault limit))
  | file path => Json.ofOption FileOutline.toJson (s.fileOutline (root.relative path))
  | tree start depth kind => Json.ofOption ContainmentTree.toJson (s.tree start depth kind)
  | stats => s.stats.toJson
where
  orDefault (limit : Option Nat) : Nat := limit.getD config.defaultLimit.toNat

end CodeGraph

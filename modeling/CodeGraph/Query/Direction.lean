import CodeGraph.Error

/-!
# Directions

* `EdgeDirection`: which side of a declaration's edges is asked for.
* `HierarchyDirection`: which way an inheritance walk goes.
-/

namespace CodeGraph

/-- Which of a declaration's edges are asked for. -/
inductive EdgeDirection where
  | outgoing | incoming | both
  deriving DecidableEq, Repr

namespace EdgeDirection

/-- The name of a direction. -/
def name : EdgeDirection → String
  | outgoing => "Outgoing"
  | incoming => "Incoming"
  | both => "Both"

/-- The words that a direction is read from. -/
def words : List (String × EdgeDirection) :=
  [("outgoing", outgoing), ("out", outgoing), ("incoming", incoming), ("in", incoming),
   ("both", both)]

/-- Reads a direction given as a parameter. -/
def read (value : String) : Except Error EdgeDirection :=
  readWord "direction" "outgoing, incoming or both" words value

end EdgeDirection

/-- Which way an inheritance walk goes: to base types or to derived types. -/
inductive HierarchyDirection where
  | ancestors | descendants
  deriving DecidableEq, Repr

namespace HierarchyDirection

/-- The name of a direction. -/
def name : HierarchyDirection → String
  | ancestors => "Ancestors"
  | descendants => "Descendants"

/-- The words that a direction is read from. -/
def words : List (String × HierarchyDirection) :=
  [("ancestors", ancestors), ("up", ancestors), ("base", ancestors),
   ("descendants", descendants), ("down", descendants), ("derived", descendants)]

/-- Reads a direction given as a parameter. -/
def read (value : String) : Except Error HierarchyDirection :=
  readWord "direction" "ancestors or descendants" words value

end HierarchyDirection

end CodeGraph

import CodeGraph.Error

/-!
# Kinds of declarations and relationships

* `NodeKind`, `EdgeKind`: the two closed vocabularies, in their fixed order.
* `NodeKind.read`, `EdgeKind.read`: reading a kind from a parameter.
-/

namespace CodeGraph

/-! ## Declarations -/

/-- What kind of code entity a declaration is. -/
inductive NodeKind where
  | solution | project | file | nameSpace
  | classType | interface | struct | enum | record | delegate
  | method | constructor | property | field | event
  | parameter | localVariable | typeParameter
  deriving DecidableEq, Repr

namespace NodeKind

/-- All kinds, in their fixed order. -/
def all : List NodeKind :=
  [solution, project, file, nameSpace, classType, interface, struct, enum, record, delegate,
   method, constructor, property, field, event, parameter, localVariable, typeParameter]

/-- The name of a kind. -/
def name : NodeKind → String
  | solution => "Solution"
  | project => "Project"
  | file => "File"
  | nameSpace => "Namespace"
  | classType => "Class"
  | interface => "Interface"
  | struct => "Struct"
  | enum => "Enum"
  | record => "Record"
  | delegate => "Delegate"
  | method => "Method"
  | constructor => "Constructor"
  | property => "Property"
  | field => "Field"
  | event => "Event"
  | parameter => "Parameter"
  | localVariable => "LocalVariable"
  | typeParameter => "TypeParameter"

/-- The place of a kind in the fixed order. -/
def index (k : NodeKind) : Nat := all.idxOf k

/-- The kind with exactly this name. -/
def ofName? (s : String) : Option NodeKind := all.find? fun k => k.name == s

/-- Reads a kind given as a parameter. -/
def read (value : String) : Except Error NodeKind :=
  readWord "kind" "a declaration kind" (all.map fun k => (k.name, k)) value

end NodeKind

/-! ## Relationships -/

/-- What kind of relationship an edge is. -/
inductive EdgeKind where
  | contains
  | inherits | implements | overrides
  | calls | constructs | references | uses
  | dependsOn | imports
  deriving DecidableEq, Repr

namespace EdgeKind

/-- All kinds, in their fixed order. -/
def all : List EdgeKind :=
  [contains, inherits, implements, overrides, calls, constructs, references, uses, dependsOn,
   imports]

/-- The name of a kind. -/
def name : EdgeKind → String
  | contains => "Contains"
  | inherits => "Inherits"
  | implements => "Implements"
  | overrides => "Overrides"
  | calls => "Calls"
  | constructs => "Constructs"
  | references => "References"
  | uses => "Uses"
  | dependsOn => "DependsOn"
  | imports => "Imports"

/-- The place of a kind in the fixed order. -/
def index (k : EdgeKind) : Nat := all.idxOf k

/-- The kind with exactly this name. -/
def ofName? (s : String) : Option EdgeKind := all.find? fun k => k.name == s

/-- Reads a kind given as a parameter. -/
def read (value : String) : Except Error EdgeKind :=
  readWord "relationship" "a relationship kind" (all.map fun k => (k.name, k)) value

end EdgeKind

end CodeGraph

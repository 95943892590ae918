import CodeGraph.Digest
import CodeGraph.Kind

/-!
# Declarations and relationships

The data of the graph: nodes are declarations of a code base and edges are relationships between
them, each with an identifier that depends only on what it says.

* `Node`, `Edge`, `Snapshot`: the data.
* `NodeId.derive`, `EdgeId.derive`: the identifiers that follow from the data.
* `Signature`: what a declaration's metadata may say about its form.
-/

namespace CodeGraph

/-! ## Identifiers -/

/-- The identifier of a declaration. -/
abbrev NodeId := String

/-- The identifier of a relationship. -/
abbrev EdgeId := String

/-- The identifier of a declaration of a kind with a qualified name. Its file plays no part, so a
declaration that moves keeps it. -/
def NodeId.derive (kind : NodeKind) (qualifiedName : String) : NodeId :=
  kind.name ++ ":" ++ Digest.hex16 (Digest.digest
    (Digest.littleEndian 8 kind.index ++ Digest.terminated qualifiedName))

/-- The bytes that stand for an optional line. -/
def lineBytes : Option UInt32 → List UInt8
  | none => Digest.littleEndian 8 0
  | some line => Digest.littleEndian 8 1 ++ Digest.littleEndian 4 line.toNat

/-- The identifier of a relationship between two declarations, of a kind, seen at a line. -/
def EdgeId.derive (source target : NodeId) (kind : EdgeKind) (line : Option UInt32) : EdgeId :=
  kind.name ++ ":" ++ Digest.hex16 (Digest.digest
    (Digest.terminated source ++ Digest.terminated target ++
      Digest.littleEndian 8 kind.index ++ lineBytes line))

/-! ## Data -/

/-- A declaration. Its file is given relative to the project root. -/
structure Node where
  id : NodeId
  name : String
  qualifiedName : String
  kind : NodeKind
  file : Path
  startLine : Option UInt32 := none
  startColumn : Option UInt32 := none
  endLine : Option UInt32 := none
  endColumn : Option UInt32 := none
  /-- An architectural level, such as "domain". -/
  layer : Option String := none
  description : Option String := none
  /-- A text whose form is that of a `Signature`, if any. -/
  metadata : Option String := none
  deriving DecidableEq, Repr

/-- A directed relationship between two declarations. -/
structure Edge where
  id : EdgeId
  source : NodeId
  target : NodeId
  kind : EdgeKind
  /-- The file in which the relationship is expressed. -/
  file : Option Path := none
  line : Option UInt32 := none
  metadata : Option String := none
  deriving DecidableEq, Repr

/-- A copy of a whole graph. -/
structure Snapshot where
  nodes : List Node
  edges : List Edge
  deriving DecidableEq, Repr

/-- Whether a snapshot holds nothing. -/
def Snapshot.isEmpty (s : Snapshot) : Bool := s.nodes.isEmpty && s.edges.isEmpty

/-! ## Signatures -/

/-- A parameter of a declaration. -/
structure Parameter where
  name : String
  typeName : Option String := none
  deriving DecidableEq, Repr

/-- The form of a declaration. -/
structure Signature where
  accessibility : Option String := none
  modifiers : List String := []
  returnType : Option String := none
  parameters : List Parameter := []
  deriving DecidableEq, Repr

end CodeGraph

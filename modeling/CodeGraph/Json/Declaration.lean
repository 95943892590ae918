import CodeGraph.Declaration
import CodeGraph.Json.Basic
import CodeGraph.Json.Decode

/-!
# The JSON form of declarations

Every type of the graph's data has a written form, `toJson`, and a reading of it, `ofJson?`. An
absent optional field is not written; a field that has a value of its own need not be given.

* `Node`, `Edge`, `Snapshot`, `Parameter`, `Signature`: the two directions of each.
* `Node.signature?`: the signature that a declaration's metadata holds.
-/

namespace CodeGraph

/-! ## Scalars -/

/-- A path is written as its text. -/
def Path.toJson (p : Path) : Json := .str p.text

/-- A path is read from any text. -/
def Path.ofJson? (p : Parsed) : Option Path := p.text?.map Path.mk

/-- A number of 32 bits. -/
def Json.word32 (n : UInt32) : Json := .num n.toNat

/-- A number of 64 bits. -/
def Json.word64 (n : UInt64) : Json := .num n.toNat

/-- A kind is written as its name. -/
def NodeKind.toJson (k : NodeKind) : Json := .str k.name

/-- A kind is read from exactly its name. -/
def NodeKind.ofJson? (p : Parsed) : Option NodeKind := p.plain? NodeKind.ofName?

/-- A kind is written as its name. -/
def EdgeKind.toJson (k : EdgeKind) : Json := .str k.name

/-- A kind is read from exactly its name. -/
def EdgeKind.ofJson? (p : Parsed) : Option EdgeKind := p.plain? EdgeKind.ofName?

/-! ## Nodes and edges -/

/-- The written form of a declaration. -/
def Node.toJson (n : Node) : Json :=
  .obj ([("id", .str n.id), ("name", .str n.name), ("fully_qualified_name", .str n.qualifiedName),
      ("kind", n.kind.toJson), ("file_path", n.file.toJson)] ++
    Json.member? "start_line" Json.word32 n.startLine ++
    Json.member? "start_column" Json.word32 n.startColumn ++
    Json.member? "end_line" Json.word32 n.endLine ++
    Json.member? "end_column" Json.word32 n.endColumn ++
    Json.member? "layer" Json.str n.layer ++
    Json.member? "description" Json.str n.description ++
    Json.member? "metadata" Json.str n.metadata)

/-- The names of a declaration's fields. -/
def Node.fieldNames : List String :=
  ["id", "name", "fully_qualified_name", "kind", "file_path", "start_line", "start_column",
   "end_line", "end_column", "layer", "description", "metadata"]

/-- Reads a declaration. -/
def Node.ofJson? (p : Parsed) : Option Node :=
  match p.record? fieldNames with
  | some [id, name, qualifiedName, kind, file, startLine, startColumn, endLine, endColumn, layer,
      description, metadata] => do
    let id ← Parsed.required? Parsed.text? id
    let name ← Parsed.required? Parsed.text? name
    let qualifiedName ← Parsed.required? Parsed.text? qualifiedName
    let kind ← Parsed.required? NodeKind.ofJson? kind
    let file ← Parsed.required? Path.ofJson? file
    let startLine ← Parsed.orElse? (Parsed.option? Parsed.word32?) none startLine
    let startColumn ← Parsed.orElse? (Parsed.option? Parsed.word32?) none startColumn
    let endLine ← Parsed.orElse? (Parsed.option? Parsed.word32?) none endLine
    let endColumn ← Parsed.orElse? (Parsed.option? Parsed.word32?) none endColumn
    let layer ← Parsed.orElse? (Parsed.option? Parsed.text?) none layer
    let description ← Parsed.orElse? (Parsed.option? Parsed.text?) none description
    let metadata ← Parsed.orElse? (Parsed.option? Parsed.text?) none metadata
    some { id, name, qualifiedName, kind, file, startLine, startColumn, endLine, endColumn, layer,
           description, metadata }
  | _ => none

/-- The written form of a relationship. -/
def Edge.toJson (e : Edge) : Json :=
  .obj ([("id", .str e.id), ("source_id", .str e.source), ("target_id", .str e.target),
      ("kind", e.kind.toJson)] ++
    Json.member? "file_path" Path.toJson e.file ++
    Json.member? "line" Json.word32 e.line ++
    Json.member? "metadata" Json.str e.metadata)

/-- The names of a relationship's fields. -/
def Edge.fieldNames : List String :=
  ["id", "source_id", "target_id", "kind", "file_path", "line", "metadata"]

/-- Reads a relationship. -/
def Edge.ofJson? (p : Parsed) : Option Edge :=
  match p.record? fieldNames with
  | some [id, source, target, kind, file, line, metadata] => do
    let id ← Parsed.required? Parsed.text? id
    let source ← Parsed.required? Parsed.text? source
    let target ← Parsed.required? Parsed.text? target
    let kind ← Parsed.required? EdgeKind.ofJson? kind
    let file ← Parsed.orElse? (Parsed.option? Path.ofJson?) none file
    let line ← Parsed.orElse? (Parsed.option? Parsed.word32?) none line
    let metadata ← Parsed.orElse? (Parsed.option? Parsed.text?) none metadata
    some { id, source, target, kind, file, line, metadata }
  | _ => none

/-! ## Snapshots -/

/-- The members of a snapshot's written form. -/
def Snapshot.members (s : Snapshot) : List (String × Json) :=
  [("nodes", Json.ofList Node.toJson s.nodes), ("edges", Json.ofList Edge.toJson s.edges)]

/-- The written form of a snapshot. -/
def Snapshot.toJson (s : Snapshot) : Json := .obj s.members

/-- The names of a snapshot's fields. -/
def Snapshot.fieldNames : List String := ["nodes", "edges"]

/-- A snapshot from its two fields. -/
def Snapshot.ofFields? : List (Option Parsed) → Option Snapshot
  | [nodes, edges] => do
    let nodes ← Parsed.required? (Parsed.list? Node.ofJson?) nodes
    let edges ← Parsed.required? (Parsed.list? Edge.ofJson?) edges
    some { nodes, edges }
  | _ => none

/-- Reads a snapshot. -/
def Snapshot.ofJson? (p : Parsed) : Option Snapshot := (p.record? fieldNames).bind ofFields?

/-! ## Signatures -/

/-- The written form of a parameter. -/
def Parameter.toJson (p : Parameter) : Json :=
  .obj [("name", .str p.name), ("type_name", Json.ofOption Json.str p.typeName)]

/-- Reads a parameter. -/
def Parameter.ofJson? (p : Parsed) : Option Parameter :=
  match p.record? ["name", "type_name"] with
  | some [name, typeName] => do
    let name ← Parsed.required? Parsed.text? name
    let typeName ← Parsed.orElse? (Parsed.option? Parsed.text?) none typeName
    some { name, typeName }
  | _ => none

/-- The written form of a signature. -/
def Signature.toJson (s : Signature) : Json :=
  .obj [("accessibility", Json.ofOption Json.str s.accessibility),
    ("modifiers", Json.ofList Json.str s.modifiers),
    ("return_type", Json.ofOption Json.str s.returnType),
    ("parameters", Json.ofList Parameter.toJson s.parameters)]

/-- Reads a signature. -/
def Signature.ofJson? (p : Parsed) : Option Signature :=
  match p.record? ["accessibility", "modifiers", "return_type", "parameters"] with
  | some [accessibility, modifiers, returnType, parameters] => do
    let accessibility ← Parsed.orElse? (Parsed.option? Parsed.text?) none accessibility
    let modifiers ← Parsed.orElse? (Parsed.list? Parsed.text?) [] modifiers
    let returnType ← Parsed.orElse? (Parsed.option? Parsed.text?) none returnType
    let parameters ← Parsed.orElse? (Parsed.list? Parameter.ofJson?) [] parameters
    some { accessibility, modifiers, returnType, parameters }
  | _ => none

/-- The signature that a declaration's metadata holds; metadata of any other form holds none. -/
def Node.signature? (n : Node) : Option Signature :=
  (n.metadata.bind Json.parse?).bind Signature.ofJson?

end CodeGraph

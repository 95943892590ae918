import CodeGraph.Change.Basic
import CodeGraph.Config
import CodeGraph.Proofs.Json.Declaration

/-!
# Reading undoes writing, for the whole data model

Every type that has a written form is read from the text of that form as the value that was
written, whether the text is compact or indented. A field that is written as `null` comes back
absent, and one that has a value of its own comes back with the value that was written.

* `Json.record?_obj`: a record all of whose fields are written.
* `Snapshot.reads`, `Signature.reads`, `Change.reads`, `Config.reads`: graphs, signatures, changes
  and configurations.
* `Json.Recovers`: a text of a value reads as the value.
* **`Json.recovers_data`**: the main statement.
-/

namespace CodeGraph

open Json (tree)

namespace Json

/-! ## Records that are written whole -/

theorem record?_obj {members : List (String × Json)} {names : List String}
    (hnames : members.map Prod.fst = names) (h : names.Nodup) :
    (obj members).tree.record? names = some (members.map fun m => some m.2.tree) := by
  have hfields : ∀ l : List (String × Json), fields (l.map fun m => (m.1, some m.2)) = l := by
    intro l
    induction l with
    | nil => rfl
    | cons m l ih => rw [List.map_cons, fields_cons_some, ih]
  have hkeys : (members.map fun m => (m.1, some m.2)).map Prod.fst = names := by
    rw [List.map_map, ← hnames]
    rfl
  have hrecord := record?_fields (l := members.map fun m => (m.1, some m.2)) (by rwa [hkeys])
  rw [hfields, hkeys, List.map_map] at hrecord
  exact hrecord

theorem reads_bool : Reads bool Parsed.bool? := ⟨fun _ => rfl, nofun⟩

namespace Reads

variable {α : Type} {write : α → Json} {read : Parsed → Option α} (h : Reads write read)
include h

theorem given (a fallback : α) : Parsed.orElse? read fallback (some (write a).tree) = some a :=
  h.read_tree a

theorem nullable (a : Option α) :
    Parsed.orElse? (Parsed.option? read) none (some (ofOption write a).tree) = some a := by
  cases a with
  | none => rfl
  | some a => exact h.optional (some a)

theorem all : Reads (ofList write) (Parsed.list? read) := ⟨h.list, nofun⟩

end Reads

end Json

/-! ## Graphs -/

theorem Snapshot.reads : Json.Reads Snapshot.toJson Snapshot.ofJson? where
  read_tree s := by
    have hrecord : s.toJson.tree.record? fieldNames = some (s.fields.map fun f => f.2.map tree) :=
      Json.record?_fields (l := s.fields) (show fieldNames.Nodup by decide)
    rw [ofJson?, hrecord, Option.bind_some, ofFields?_fields]
  ne_null := nofun

/-! ## Signatures -/

theorem Parameter.reads : Json.Reads Parameter.toJson Parameter.ofJson? where
  read_tree p := by
    have hrecord : p.toJson.tree.record? ["name", "type_name"] = _ :=
      Json.record?_obj rfl (by decide)
    simp only [ofJson?, hrecord, List.map_cons, List.map_nil, Json.reads_text.required,
      Json.reads_text.nullable, Option.bind_eq_bind, Option.bind_some]
  ne_null := nofun

theorem Signature.reads : Json.Reads Signature.toJson Signature.ofJson? where
  read_tree s := by
    have hrecord : s.toJson.tree.record?
        ["accessibility", "modifiers", "return_type", "parameters"] = _ :=
      Json.record?_obj rfl (by decide)
    simp only [ofJson?, hrecord, List.map_cons, List.map_nil, Json.reads_text.nullable,
      Json.reads_text.all.given, Parameter.reads.all.given, Option.bind_eq_bind, Option.bind_some]
  ne_null := nofun

/-! ## Changes -/

theorem ChangeKind.reads : Json.Reads ChangeKind.toJson ChangeKind.ofJson? where
  read_tree k := by
    cases k with
    | created | modified | deleted => rfl
    | renamed source =>
      have hrecord : (Json.obj [("from", source.toJson)]).tree.record? ["from"] = _ :=
        Json.record?_obj rfl (by decide)
      show renamedOfJson? (Json.obj [("from", source.toJson)]).tree = some (renamed source)
      simp only [renamedOfJson?, hrecord, List.map_cons, List.map_nil, Json.reads_path.required,
        Option.map_some]
  ne_null k := by cases k <;> nofun

theorem Change.reads : Json.Reads Change.toJson Change.ofJson? where
  read_tree c := by
    have hrecord : c.toJson.tree.record? ["path", "kind"] = _ := Json.record?_obj rfl (by decide)
    simp only [ofJson?, hrecord, List.map_cons, List.map_nil, Json.reads_path.required,
      ChangeKind.reads.required, Option.bind_eq_bind, Option.bind_some]
  ne_null := nofun

/-! ## Configurations -/

theorem Config.reads : Json.Reads Config.toJson Config.ofJson? where
  read_tree c := by
    have hrecord : c.toJson.tree.record? fieldNames = _ := Json.record?_obj rfl (by decide)
    simp only [ofJson?, hrecord, List.map_cons, List.map_nil, Json.reads_word64.given,
      Json.reads_bool.given, Json.reads_text.given, Json.reads_text.all.given,
      Option.bind_eq_bind, Option.bind_some]
  ne_null := nofun

/-! ## Texts -/

namespace Json

/-- Reading recovers every value from its compact and from its indented text. -/
def Recovers {α : Type} (write : α → Json) (read : Parsed → Option α) : Prop :=
  ∀ a, (parse? (write a).compact).bind read = some a ∧
    (parse? (write a).pretty).bind read = some a

theorem Reads.recovers {α : Type} {write : α → Json} {read : Parsed → Option α}
    (h : Reads write read) : Recovers write read := by
  intro a
  rw [parse?_compact, parse?_pretty, Option.bind_some]
  exact ⟨h.read_tree a, h.read_tree a⟩

/-- **Decoding undoes encoding**: declarations, relationships, graphs, changes and configurations
are recovered from their texts, and so is a signature that a declaration keeps in its metadata. -/
theorem recovers_data :
    Recovers Node.toJson Node.ofJson? ∧ Recovers Edge.toJson Edge.ofJson? ∧
    Recovers Snapshot.toJson Snapshot.ofJson? ∧ Recovers Change.toJson Change.ofJson? ∧
    Recovers Config.toJson Config.ofJson? ∧
    ∀ (n : Node) (s : Signature),
      { n with metadata := some s.toJson.compact : Node }.signature? = some s ∧
      { n with metadata := some s.toJson.pretty : Node }.signature? = some s := by
  refine ⟨Node.reads.recovers, Edge.reads.recovers, Snapshot.reads.recovers,
    Change.reads.recovers, Config.reads.recovers, fun n s => ?_⟩
  obtain ⟨hcompact, hpretty⟩ := Signature.reads.recovers s
  rw [Node.signature?, Node.signature?, Option.bind_some, Option.bind_some]
  exact ⟨hcompact, hpretty⟩

end Json

end CodeGraph

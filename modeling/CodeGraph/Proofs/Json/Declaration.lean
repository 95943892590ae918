import CodeGraph.Json.Declaration
import CodeGraph.Proofs.Json.Text

/-!
# Reading undoes writing, for the graph's data

A record is written with the fields it has, in their order, so no key stands twice and every field
is found again; an absent one is missed, and counts as absent.

* `Json.Reads`: a reading that undoes a writing.
* `Json.fields`, `Json.record?_fields`, `Json.flat?_fields`: written records and their fields.
* **`Node.reads`**, **`Edge.reads`**: declarations and relationships.
* `Snapshot.ofFields?_fields`: whole graphs.
-/

namespace CodeGraph

open Json (tree)

namespace Json

/-! ## Readings that undo a writing -/

/-- A reading that undoes a writing. No value is written as `null`, which stands for none. -/
structure Reads {α : Type} (write : α → Json) (read : Parsed → Option α) : Prop where
  read_tree : ∀ a, read (write a).tree = some a
  ne_null : ∀ a, write a ≠ null

theorem reads_text : Reads str Parsed.text? := ⟨fun _ => rfl, nofun⟩

theorem reads_path : Reads Path.toJson Path.ofJson? := ⟨fun _ => rfl, nofun⟩

theorem natural?_tree {n largest : Nat} (h : n ≤ largest) :
    (num n).tree.natural? largest = some n := by
  simp [tree, Parsed.natural?, JsonNumber.natural?, h]

theorem reads_word32 : Reads word32 Parsed.word32? where
  read_tree n := by
    rw [Parsed.word32?, word32, natural?_tree (by have := n.toNat_lt; omega), Option.map_some,
      UInt32.ofNat_toNat]
  ne_null := nofun

theorem reads_word64 : Reads word64 Parsed.word64? where
  read_tree n := by
    rw [Parsed.word64?, word64, natural?_tree (by have := n.toNat_lt; omega), Option.map_some,
      UInt64.ofNat_toNat]
  ne_null := nofun

theorem reads_nodeKind : Reads NodeKind.toJson NodeKind.ofJson? where
  read_tree k := by cases k <;> decide
  ne_null := nofun

theorem reads_edgeKind : Reads EdgeKind.toJson EdgeKind.ofJson? where
  read_tree k := by cases k <;> decide
  ne_null := nofun

namespace Reads

variable {α : Type} {write : α → Json} {read : Parsed → Option α} (h : Reads write read)
include h

theorem required (a : α) : Parsed.required? read (some (write a).tree) = some a := h.read_tree a

theorem optional (a : Option α) :
    Parsed.orElse? (Parsed.option? read) none ((a.map write).map tree) = some a := by
  cases a with
  | none => rfl
  | some a =>
    have hread := h.read_tree a
    have hnull := h.ne_null a
    simp only [Option.map_some, Parsed.orElse?]
    cases hw : write a with
    | null => exact absurd hw hnull
    | _ => simp_all [tree, Parsed.option?]

theorem list (l : List α) : Parsed.list? read (ofList write l).tree = some l := by
  have htrees : ∀ l, (trees (l.map write)).mapM read = some l := by
    intro l
    induction l with
    | nil => rfl
    | cons a l ih => simp [trees, h.read_tree a, ih]
  simp only [ofList, tree, Parsed.list?, htrees]

end Reads

/-! ## Written records -/

theorem mem_memberTrees {members : List (String × Json)} {m : Option String × Parsed} :
    m ∈ memberTrees members ↔ ∃ m' ∈ members, m = (some m'.1, m'.2.tree) := by
  induction members with
  | nil => simp [memberTrees]
  | cons m' members ih => simp [memberTrees, ih]

theorem all_isSome_memberTrees (members : List (String × Json)) :
    ((memberTrees members).all fun m => m.1.isSome) = true := by
  rw [List.all_eq_true]
  intro m hm
  obtain ⟨m', -, rfl⟩ := mem_memberTrees.1 hm
  rfl

/-- The members of a record whose fields are given with their values; an absent one is left out. -/
def fields (l : List (String × Option Json)) : List (String × Json) :=
  l.filterMap fun f => f.2.map (f.1, ·)

@[simp] theorem fields_cons_none (key : String) (l : List (String × Option Json)) :
    fields ((key, none) :: l) = fields l := rfl

@[simp] theorem fields_cons_some (key : String) (value : Json) (l : List (String × Option Json)) :
    fields ((key, some value) :: l) = (key, value) :: fields l := rfl

theorem fields_append (l l' : List (String × Option Json)) :
    fields (l ++ l') = fields l ++ fields l' := List.filterMap_append

theorem member?_eq_fields {α : Type} (key : String) (write : α → Json) (a : Option α) :
    member? key write a = fields [(key, a.map write)] := by
  cases a <;> rfl

theorem mem_fields {l : List (String × Option Json)} {m : String × Json} :
    m ∈ fields l ↔ (m.1, some m.2) ∈ l := by
  simp only [fields, List.mem_filterMap, Option.map_eq_some_iff]
  constructor
  · rintro ⟨⟨key, value⟩, hf, j, rfl, rfl⟩
    exact hf
  · exact fun hm => ⟨_, hm, m.2, rfl, rfl⟩

theorem filter_fields_of_not_mem {l : List (String × Option Json)} {name : String}
    (h : name ∉ l.map Prod.fst) :
    (memberTrees (fields l)).filter (fun m => m.1 == some name) = [] := by
  rw [List.filter_eq_nil_iff]
  intro m hm
  obtain ⟨m', hm', rfl⟩ := mem_memberTrees.1 hm
  have hne : m'.1 ≠ name := fun he => h (List.mem_map.2 ⟨_, mem_fields.1 hm', he⟩)
  simp [hne]

section Fields

variable {l : List (String × Option Json)} (h : (l.map Prod.fst).Nodup)
include h

/-- **Every field of a written record is found again.** -/
theorem member?_fields {f : String × Option Json} (hf : f ∈ l) :
    Parsed.member? (memberTrees (fields l)) f.1 = some (f.2.map tree) := by
  induction l with
  | nil => cases hf
  | cons g l ih =>
    obtain ⟨key, value⟩ := g
    rw [List.map_cons, List.nodup_cons] at h
    have habsent := filter_fields_of_not_mem h.1
    rcases List.mem_cons.1 hf with rfl | hf
    · cases value with
      | none => simp [Parsed.member?, habsent]
      | some value => simp [memberTrees, Parsed.member?, habsent]
    · have hne : f.1 ≠ key := fun he => h.1 (List.mem_map.2 ⟨f, hf, he⟩)
      have hih := ih h.2 hf
      cases value with
      | none => exact hih
      | some value => simpa [memberTrees, Parsed.member?, hne.symm] using hih

theorem mapM_member?_fields {l' : List (String × Option Json)} (hl : l' ⊆ l) :
    (l'.map Prod.fst).mapM (Parsed.member? (memberTrees (fields l))) =
      some (l'.map fun f => f.2.map tree) := by
  rw [List.mapM_map]
  induction l' with
  | nil => rfl
  | cons f l' ih =>
    rw [List.cons_subset] at hl
    simp [member?_fields h hl.1, ih hl.2]

theorem record?_fields :
    (obj (fields l)).tree.record? (l.map Prod.fst) = some (l.map fun f => f.2.map tree) := by
  rw [tree, Parsed.record?, if_pos (all_isSome_memberTrees _),
    mapM_member?_fields h (List.Subset.refl l)]

end Fields

theorem membersBuffered_iff {depth : Nat} {members : List (Option String × Parsed)} :
    Parsed.membersBuffered depth members = true ↔
      ∀ m ∈ members, m.1.isSome = true ∧ m.2.isBuffered depth = true := by
  induction members with
  | nil => simp [Parsed.membersBuffered]
  | cons m members ih => simp [Parsed.membersBuffered, ih]

theorem areBuffered_iff {depth : Nat} {items : List Parsed} :
    Parsed.areBuffered depth items = true ↔ ∀ p ∈ items, p.isBuffered depth = true := by
  induction items with
  | nil => simp [Parsed.areBuffered]
  | cons p items ih => simp [Parsed.areBuffered, ih]

/-- Both parts of a written record that keeps the fields of another among its own are found again,
if what is set aside can be. -/
theorem flat?_fields {l l' : List (String × Option Json)} (h : ((l ++ l').map Prod.fst).Nodup)
    (hb : ∀ f ∈ l', ∀ j, f.2 = some j → j.tree.isBuffered Parsed.bufferDepth = true) :
    (obj (fields (l ++ l'))).tree.flat? (l.map Prod.fst) (l'.map Prod.fst) =
      some (l.map fun f => f.2.map tree, l'.map fun f => f.2.map tree) := by
  have hbuffered : Parsed.membersBuffered Parsed.bufferDepth
      ((memberTrees (fields (l ++ l'))).filter fun m =>
        !((l.map Prod.fst).any fun n => m.1 == some n)) = true := by
    rw [membersBuffered_iff]
    intro m hm
    obtain ⟨hm, hown⟩ := List.mem_filter.1 hm
    obtain ⟨m', hm', rfl⟩ := mem_memberTrees.1 hm
    refine ⟨rfl, ?_⟩
    rcases List.mem_append.1 (mem_fields.1 hm') with hl | hl'
    · -- A field of the record itself is not set aside.
      have hkey : ((l.map Prod.fst).any fun n => some m'.1 == some n) = true :=
        List.any_eq_true.2 ⟨m'.1, List.mem_map.2 ⟨_, hl, rfl⟩, by simp⟩
      rw [hkey] at hown
      cases hown
    · exact hb _ hl' _ rfl
  have hfirst := mapM_member?_fields h (List.subset_append_left l l')
  have hsecond := mapM_member?_fields h (List.subset_append_right l l')
  simp only [tree, Parsed.flat?, hbuffered, all_isSome_memberTrees, hfirst, hsecond]
  rfl

/-! ## Values that can be set aside -/

/-- A text or a number of 32 bits. -/
def IsScalar (j : Json) : Prop := (∃ s, j = str s) ∨ ∃ n, j = word32 n

@[simp] theorem isScalar_str (s : String) : IsScalar (str s) := .inl ⟨s, rfl⟩

@[simp] theorem isScalar_word32 (n : UInt32) : IsScalar (word32 n) := .inr ⟨n, rfl⟩

theorem isBuffered_scalar {j : Json} (h : j.IsScalar) (depth : Nat) :
    j.tree.isBuffered depth = true := by
  obtain ⟨s, rfl⟩ | ⟨n, rfl⟩ := h
  · rfl
  · have hlength : (Nat.toDigits 10 n.toNat).length ≤ 10 :=
      (Nat.length_toDigits_le_iff (by decide) (by decide)).2 (by have := n.toNat_lt; omega)
    have hplaces : ((Nat.toDigits 10 n.toNat).length : Int) < 300 := by omega
    simp [word32, tree, Parsed.isBuffered, JsonNumber.isFinite, hplaces]

theorem isBuffered_record {l : List (String × Option Json)}
    (h : ∀ f ∈ l, ∀ j, f.2 = some j → j.IsScalar) (depth : Nat) :
    (obj (fields l)).tree.isBuffered (depth + 1) = true := by
  rw [tree, Parsed.isBuffered, membersBuffered_iff]
  intro m hm
  obtain ⟨m', hm', rfl⟩ := mem_memberTrees.1 hm
  exact ⟨rfl, isBuffered_scalar (h _ (mem_fields.1 hm') _ rfl) depth⟩

theorem isBuffered_list {α : Type} {write : α → Json} {depth : Nat}
    (h : ∀ a, (write a).tree.isBuffered depth = true) (l : List α) :
    (ofList write l).tree.isBuffered (depth + 1) = true := by
  have htrees : ∀ l : List Json, trees l = l.map tree := by
    intro l
    induction l with
    | nil => rfl
    | cons j l ih => simp [trees, ih]
  rw [ofList, tree, Parsed.isBuffered, areBuffered_iff, htrees, List.map_map]
  intro p hp
  obtain ⟨a, -, rfl⟩ := List.mem_map.1 hp
  exact h a

end Json

/-! ## Declarations and relationships -/

namespace Node

/-- The fields of a declaration's written form. -/
def fields (n : Node) : List (String × Option Json) :=
  [("id", some (.str n.id)), ("name", some (.str n.name)),
   ("fully_qualified_name", some (.str n.qualifiedName)), ("kind", some n.kind.toJson),
   ("file_path", some n.file.toJson), ("start_line", n.startLine.map Json.word32),
   ("start_column", n.startColumn.map Json.word32), ("end_line", n.endLine.map Json.word32),
   ("end_column", n.endColumn.map Json.word32), ("layer", n.layer.map Json.str),
   ("description", n.description.map Json.str), ("metadata", n.metadata.map Json.str)]

theorem toJson_eq (n : Node) : n.toJson = .obj (Json.fields n.fields) := by
  simp only [toJson, fields, Json.member?_eq_fields, Json.fields_cons_some, ← Json.fields_append,
    List.cons_append, List.nil_append]

theorem keys_fields (n : Node) : n.fields.map Prod.fst = fieldNames := rfl

theorem record?_toJson (n : Node) :
    n.toJson.tree.record? fieldNames = some (n.fields.map fun f => f.2.map tree) := by
  have hnodup : (n.fields.map Prod.fst).Nodup := by
    rw [keys_fields]
    decide
  rw [toJson_eq, ← n.keys_fields, Json.record?_fields hnodup]

/-- **A declaration is read as it was written.** -/
theorem reads : Json.Reads toJson ofJson? where
  read_tree n := by
    simp only [ofJson?, record?_toJson, fields, List.map_cons, List.map_nil, Option.map_some,
      Json.reads_text.required, Json.reads_nodeKind.required, Json.reads_path.required,
      Json.reads_word32.optional, Json.reads_text.optional, Option.bind_eq_bind, Option.bind_some]
  ne_null n := by
    rw [toJson_eq]
    nofun

theorem isBuffered_toJson (n : Node) (depth : Nat) :
    n.toJson.tree.isBuffered (depth + 1) = true := by
  rw [toJson_eq]
  exact Json.isBuffered_record (by simp [fields, NodeKind.toJson, Path.toJson]) depth

end Node

namespace Edge

/-- The fields of a relationship's written form. -/
def fields (e : Edge) : List (String × Option Json) :=
  [("id", some (.str e.id)), ("source_id", some (.str e.source)),
   ("target_id", some (.str e.target)), ("kind", some e.kind.toJson),
   ("file_path", e.file.map Path.toJson), ("line", e.line.map Json.word32),
   ("metadata", e.metadata.map Json.str)]

theorem toJson_eq (e : Edge) : e.toJson = .obj (Json.fields e.fields) := by
  simp only [toJson, fields, Json.member?_eq_fields, Json.fields_cons_some, ← Json.fields_append,
    List.cons_append, List.nil_append]

theorem keys_fields (e : Edge) : e.fields.map Prod.fst = fieldNames := rfl

theorem record?_toJson (e : Edge) :
    e.toJson.tree.record? fieldNames = some (e.fields.map fun f => f.2.map tree) := by
  have hnodup : (e.fields.map Prod.fst).Nodup := by
    rw [keys_fields]
    decide
  rw [toJson_eq, ← e.keys_fields, Json.record?_fields hnodup]

/-- **A relationship is read as it was written.** -/
theorem reads : Json.Reads toJson ofJson? where
  read_tree e := by
    simp only [ofJson?, record?_toJson, fields, List.map_cons, List.map_nil, Option.map_some,
      Json.reads_text.required, Json.reads_edgeKind.required, Json.reads_path.optional,
      Json.reads_word32.optional, Json.reads_text.optional, Option.bind_eq_bind, Option.bind_some]
  ne_null e := by
    rw [toJson_eq]
    nofun

theorem isBuffered_toJson (e : Edge) (depth : Nat) :
    e.toJson.tree.isBuffered (depth + 1) = true := by
  rw [toJson_eq]
  exact Json.isBuffered_record (by simp [fields, EdgeKind.toJson, Path.toJson]) depth

end Edge

/-! ## Graphs -/

namespace Snapshot

/-- The fields of a graph's written form. -/
def fields (s : Snapshot) : List (String × Option Json) :=
  [("nodes", some (Json.ofList Node.toJson s.nodes)),
   ("edges", some (Json.ofList Edge.toJson s.edges))]

theorem ofFields?_fields (s : Snapshot) :
    ofFields? (s.fields.map fun f => f.2.map tree) = some s := by
  simp only [fields, List.map_cons, List.map_nil, Option.map_some, ofFields?, Parsed.required?,
    Option.bind_some, Node.reads.list, Edge.reads.list, Option.bind_eq_bind]

theorem isBuffered_fields (s : Snapshot) {depth : Nat} {f : String × Option Json}
    (hf : f ∈ s.fields) {j : Json} (hj : f.2 = some j) :
    j.tree.isBuffered (depth + 2) = true := by
  simp only [fields, List.mem_cons, List.not_mem_nil, or_false] at hf
  obtain rfl | rfl := hf
  · cases hj
    exact Json.isBuffered_list (fun n => n.isBuffered_toJson depth) s.nodes
  · cases hj
    exact Json.isBuffered_list (fun e => e.isBuffered_toJson depth) s.edges

end Snapshot

end CodeGraph

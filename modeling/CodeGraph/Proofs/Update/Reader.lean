import CodeGraph.Proofs.Update.Turn
import Mathlib.Logic.Function.Basic

/-!
# A graph that reflects the contents of files

An analyzer that reads each file by itself finds in a file what follows from its contents alone. If
moreover what it finds belongs to the file, the graph of a set of files is the union of what is
found in each, and renewing one file replaces its part.

* `ProjectRoot.Tidy`: paths as seen from the root; `ProjectRoot.Tidy.eq`: each place has one.
* `Contents`, `Reader`, `Reader.find`: files, and what is found in them.
* `Reader.Local`: what is found in a file belongs to the file.
* `Reflects`: the live graph is what was found in some files, up to edges that are missing.
* `Reflects.fits`, **`Reflects.refreshed`**: renewing the data of one file.
-/

namespace CodeGraph

/-! ## Paths as seen from the root -/

namespace ProjectRoot

/-- A normalized path as seen from the root. -/
def Tidy (root : ProjectRoot) (p : Path) : Prop := root.relative p = p

instance (root : ProjectRoot) (p : Path) : Decidable (root.Tidy p) :=
  inferInstanceAs (Decidable (root.relative p = p))

theorem relative_congr (root : ProjectRoot) {p q : Path} (h : p.parts = q.parts) :
    root.relative p = root.relative q := by
  unfold relative Path.normalize
  rw [h]

theorem Tidy.eq {root : ProjectRoot} {p q : Path} (hp : root.Tidy p) (hq : root.Tidy q)
    (h : p.parts = q.parts) : p = q := by
  rw [← hp, ← hq, root.relative_congr h]

end ProjectRoot

/-! ## Reading files -/

/-- The files that there are, and what is in them. -/
abbrev Contents (γ : Type) := Path → Option γ

/-- What an analyzer finds in a file, by its path and what is in it. -/
abbrev Reader (γ : Type) := Path → γ → Output

namespace Reader

variable {γ : Type}

/-- What is found in a file, which is nothing if there is no such file. -/
def find (read : Reader γ) (p : Path) (content : Option γ) : Output := content.elim {} (read p)

theorem mem_nodes_find {read : Reader γ} {p : Path} {content : Option γ} {n : Node} :
    n ∈ (read.find p content).nodes ↔ ∃ c, content = some c ∧ n ∈ (read p c).nodes := by
  cases content <;> simp [find]

theorem mem_edges_find {read : Reader γ} {p : Path} {content : Option γ} {e : Edge} :
    e ∈ (read.find p content).edges ↔ ∃ c, content = some c ∧ e ∈ (read p c).edges := by
  cases content <;> simp [find]

/-- What is found in a file belongs to the file: every declaration has one file that owns it, its
edges start at its own declarations, and no other file uses their identifiers. -/
structure Local (read : Reader γ) (owner : NodeId → Path) : Prop where
  node_owner : ∀ {p c n}, n ∈ (read p c).nodes → (owner n.id).parts = p.parts
  node_file : ∀ {p c n}, n ∈ (read p c).nodes → n.file.parts = p.parts
  edge_file : ∀ {p c e}, e ∈ (read p c).edges → ∀ f, e.file = some f → f.parts = p.parts
  edge_source : ∀ {p c e}, e ∈ (read p c).edges → e.source ∈ (read p c).nodes.map Node.id
  contains_target : ∀ {p c e}, e ∈ (read p c).edges → e.kind = .contains →
    e.target ∈ (read p c).nodes.map Node.id
  nodes_nodup : ∀ p c, ((read p c).nodes.map Node.id).Nodup
  edges_nodup : ∀ p c, ((read p c).edges.map Edge.id).Nodup
  edge_owner : ∀ {p c e p' c' e'}, e ∈ (read p c).edges → e' ∈ (read p' c').edges →
    e.id = e'.id → p.parts = p'.parts

variable {read : Reader γ} {owner : NodeId → Path} (hl : read.Local owner)
include hl

theorem Local.file_ownEdge {p : Path} {content : Option γ} {e : Edge}
    (he : e ∈ (read.find p content).edges) :
    (Project.ownEdge p e).file.map Path.parts = some p.parts := by
  obtain ⟨c, -, he⟩ := mem_edges_find.1 he
  unfold Project.ownEdge
  cases hf : e.file with
  | none => rfl
  | some f => simp [hf, hl.edge_file he f hf]

end Reader

/-! ## Graphs that reflect files -/

/-- The declarations in the live graph are those found in some files, its edges are found in them
too, and the references are those of all edges found. Edges may be missing. -/
structure Reflects {γ : Type} (read : Reader γ) (files : Contents γ) (p : Project) : Prop where
  coherent : p.store.Coherent
  node? : ∀ {i n}, p.store.node? i = some n ↔ n.id = i ∧ ∃ f, n ∈ (read.find f (files f)).nodes
  edge? : ∀ {i e}, p.store.edge? i = some e →
    ∃ f, e ∈ (read.find f (files f)).edges.map (Project.ownEdge f)
  referring : p.references.Mutual
  refers : ∀ {t k}, t ∈ Index.bucket p.references.targets k ↔
    ∃ f, f.parts = k ∧ ∃ e ∈ (read.find f (files f)).edges, e.kind ≠ .contains ∧ e.target = t
  tidy : ∀ {f}, files f ≠ none → p.root.Tidy f
  tidy_referring : ∀ {t f} {k : List Part}, (p.references.filesOf t)[k]? = some f → p.root.Tidy f

namespace Reflects

variable {γ : Type} {read : Reader γ} {owner : NodeId → Path} {files : Contents γ} {p : Project}

theorem empty {p : Project} (h : p.Fresh) : Reflects read (fun _ => none) p := by
  obtain ⟨hstore, hreferences, -⟩ := h
  refine ⟨hstore ▸ Store.coherent_empty, ?_, ?_, hreferences ▸ References.mutual_empty, ?_, ?_, ?_⟩
  · intro i n
    simp [hstore, Store.empty, Store.node?, Reader.find]
  · intro i e he
    simp [hstore, Store.empty, Store.edge?] at he
  · intro t k
    rw [hreferences]
    simp [References.empty, Index.not_mem_bucket_empty, Reader.find]
  · simp
  · intro t f k hf
    rw [hreferences] at hf
    simp [References.empty, References.filesOf] at hf

theorem congr (h : Reflects read files p) {q : Project} (hstore : q.store = p.store)
    (hreferences : q.references = p.references) (hroot : q.root = p.root) :
    Reflects read files q where
  coherent := hstore ▸ h.coherent
  node? := hstore ▸ h.node?
  edge? := hstore ▸ h.edge?
  referring := hreferences ▸ h.referring
  refers := hreferences ▸ h.refers
  tidy := hroot ▸ h.tidy
  tidy_referring := by
    rw [hreferences, hroot]
    exact h.tidy_referring

variable (hl : read.Local owner) (h : Reflects read files p)
include hl h

theorem owner_eq {i : NodeId} {n : Node} (hn : p.store.node? i = some n) :
    (owner i).parts = n.file.parts := by
  obtain ⟨rfl, f, hn⟩ := h.node?.1 hn
  obtain ⟨c, -, hn⟩ := Reader.mem_nodes_find.1 hn
  rw [hl.node_owner hn, hl.node_file hn]

theorem hasNode_of_mem {f : Path} {i : NodeId}
    (hi : i ∈ (read.find f (files f)).nodes.map Node.id) :
    p.store.hasNode i = true ∧ (owner i).parts = f.parts := by
  obtain ⟨n, hn, rfl⟩ := List.mem_map.1 hi
  obtain ⟨c, -, hm⟩ := Reader.mem_nodes_find.1 hn
  exact ⟨Store.hasNode_iff.2 ⟨n, h.node?.2 ⟨rfl, f, hn⟩⟩, hl.node_owner hm⟩

theorem hasNode_source {f : Path} {e : Edge} (he : e ∈ (read.find f (files f)).edges) :
    p.store.hasNode e.source = true ∧ (owner e.source).parts = f.parts := by
  obtain ⟨c, hc, he⟩ := Reader.mem_edges_find.1 he
  apply h.hasNode_of_mem hl
  rw [hc]
  exact hl.edge_source he

theorem hasNode_target {f : Path} {e : Edge} (he : e ∈ (read.find f (files f)).edges)
    (hkind : e.kind = .contains) : p.store.hasNode e.target = true := by
  obtain ⟨c, hc, he⟩ := Reader.mem_edges_find.1 he
  refine (h.hasNode_of_mem hl (f := f) ?_).1
  rw [hc]
  exact hl.contains_target he hkind

/-- What is found in a file uses no identifier of the data of another. -/
theorem fits (path : Path) (content : Option γ) :
    Project.Fits p.store path (read.find path content) := by
  refine ⟨?_, ?_, ?_, ?_⟩
  · cases content with
    | none => simp [Reader.find, Store.Distinct]
    | some c => exact Store.distinct_of_nodup (hl.nodes_nodup path c)
  · cases content with
    | none => simp [Reader.find, Store.Distinct]
    | some c => exact Store.distinct_of_nodup (hl.edges_nodup path c)
  · intro n m hn hfile hm hid
    obtain ⟨c, -, hm⟩ := Reader.mem_nodes_find.1 hm
    rw [← owner_eq hl h hn, ← hid, hl.node_owner hm] at hfile
    exact hfile rfl
  · intro e d he hfile hd hid
    obtain ⟨f, he⟩ := h.edge? he
    obtain ⟨e', he', rfl⟩ := List.mem_map.1 he
    rw [hl.file_ownEdge he'] at hfile
    obtain ⟨c, -, he'⟩ := Reader.mem_edges_find.1 he'
    obtain ⟨c', -, hd⟩ := Reader.mem_edges_find.1 hd
    rw [Project.ownEdge_id] at hid
    exact hfile (congrArg some (hl.edge_owner hd he' hid).symm)

omit hl in
theorem parts_ne {path f : Path} (hpath : p.root.Tidy path) (hf : files f ≠ none) (hne : f ≠ path) :
    f.parts ≠ path.parts := fun he => hne ((h.tidy hf).eq hpath he)

variable {path : Path} (hpath : p.root.Tidy path) {content : Option γ} {q : Project}
  (hq : p.Refreshed path (read.find path content) q)
include hpath hq

theorem node?_refreshed {i : NodeId} {n : Node} :
    q.store.node? i = some n ↔
      n.id = i ∧ ∃ f, n ∈ (read.find f (Function.update files path content f)).nodes := by
  rw [hq.store.node?]
  constructor
  · rintro (⟨hn, rfl⟩ | ⟨hn, hfile⟩)
    · exact ⟨rfl, path, by rwa [Function.update_self]⟩
    · obtain ⟨rfl, f, hn⟩ := h.node?.1 hn
      obtain ⟨c, hc, hm⟩ := Reader.mem_nodes_find.1 hn
      have hf : f ≠ path := by
        rintro rfl
        exact hfile (hl.node_file hm)
      exact ⟨rfl, f, by rwa [Function.update_of_ne hf]⟩
  · rintro ⟨rfl, f, hn⟩
    by_cases hf : f = path
    · subst hf
      rw [Function.update_self] at hn
      exact .inl ⟨hn, rfl⟩
    · rw [Function.update_of_ne hf] at hn
      obtain ⟨c, hc, hm⟩ := Reader.mem_nodes_find.1 hn
      have hfile := h.parts_ne hpath (by simp [hc]) hf
      exact .inr ⟨h.node?.2 ⟨rfl, f, hn⟩, by rwa [hl.node_file hm]⟩

omit hpath in
theorem edge?_refreshed {i : EdgeId} {e : Edge} (he : q.store.edge? i = some e) :
    ∃ f, e ∈ (read.find f (Function.update files path content f)).edges.map
      (Project.ownEdge f) := by
  rcases hq.store.edge?.1 he with ⟨he, -⟩ | ⟨he, hfile, -⟩
  · exact ⟨path, by rwa [Function.update_self]⟩
  · obtain ⟨f, he⟩ := h.edge? he
    have hf : f ≠ path := by
      rintro rfl
      obtain ⟨e', he', rfl⟩ := List.mem_map.1 he
      exact hfile (hl.file_ownEdge he')
    exact ⟨f, by rwa [Function.update_of_ne hf]⟩

omit hl in
theorem refers_refreshed {t : NodeId} {k : List Part} :
    t ∈ Index.bucket q.references.targets k ↔ ∃ f, f.parts = k ∧
      ∃ e ∈ (read.find f (Function.update files path content f)).edges,
        e.kind ≠ .contains ∧ e.target = t := by
  rw [hq.mem_targets, h.refers]
  constructor
  · rintro (⟨rfl, he⟩ | ⟨hk, f, rfl, he⟩)
    · exact ⟨path, rfl, by rwa [Function.update_self]⟩
    · have hf : f ≠ path := fun hf => hk (hf ▸ rfl)
      exact ⟨f, rfl, by rwa [Function.update_of_ne hf]⟩
  · rintro ⟨f, rfl, e, he, hkind⟩
    by_cases hf : f = path
    · subst hf
      rw [Function.update_self] at he
      exact .inl ⟨rfl, e, he, hkind⟩
    · rw [Function.update_of_ne hf] at he
      obtain ⟨c, hc, -⟩ := Reader.mem_edges_find.1 he
      exact .inr ⟨h.parts_ne hpath (by simp [hc]) hf, f, rfl, e, he, hkind⟩

/-- **Renewing the data of one file**: from then on the graph reflects what is found in it. -/
theorem refreshed : Reflects read (Function.update files path content) q where
  coherent := hq.store.coherent
  node? := h.node?_refreshed hl hpath hq
  edge? := h.edge?_refreshed hl hq
  referring := by
    rw [hq.references]
    exact Project.mutual_recordEdges (h.referring.removeFile path) path _
  refers := h.refers_refreshed hpath hq
  tidy {f} hf := by
    rw [hq.root]
    by_cases he : f = path
    · rwa [he]
    · rw [Function.update_of_ne he] at hf
      exact h.tidy hf
  tidy_referring {t f k} hf := by
    rw [hq.root]
    rw [hq.references] at hf
    rcases Project.getElem?_filesOf_recordEdges hf with rfl | hf
    · exact hpath
    · rw [References.getElem?_filesOf_removeFile h.referring] at hf
      split at hf
      · cases hf
      · exact h.tidy_referring hf

end Reflects

end CodeGraph

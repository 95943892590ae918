import CodeGraph.Proofs.Store.Removal
import CodeGraph.Update.Batch

/-!
# What handling one file does to the graph

Removing a file and taking its analysis in are described by what the store holds afterwards. The
repository may refuse any call: the live graph is the same whether it does or not.

* `Project.Fresh`: a project without a graph.
* `Project.Keeps`: two projects with the same live graph.
* `Project.Dropped`, **`Project.dropped_dropFile`**: the store after a file was removed.
* `Project.integrated`, `Project.node?_integrated`, `Project.edge?_integrated`: the store after an
  analysis was taken in.
-/

namespace CodeGraph

open Std

/-! ## Small projects -/

/-- A project without a graph. -/
def Project.Fresh (p : Project) : Prop :=
  p.store = .empty ∧ p.references = .empty ∧ p.symbols = {}

/-- A project before its first batch. -/
def Project.unread : Project :=
  { root := ⟨⟨"/r"⟩, none⟩, config := {}, disk := {}, repository := {} }

theorem Project.fresh_unread : Project.unread.Fresh := ⟨rfl, rfl, rfl⟩

/-- The declaration of a whole file, named as the file. -/
def Node.ofFile (path : Path) : Node :=
  { id := path.text, name := path.text, qualifiedName := path.text, kind := .file, file := path }

/-- The one call of a file, to another. -/
def Edge.ofCall (caller callee : Path) : Edge :=
  { id := caller.text, source := caller.text, target := callee.text, kind := .calls }

namespace Project

/-! ## What the repository cannot change -/

/-- The live graph, and what decides how it goes on, are the same. -/
structure Keeps (p q : Project) : Prop where
  store : q.store = p.store
  references : q.references = p.references
  root : q.root = p.root
  cancelled : q.cancelled = p.cancelled

namespace Keeps

theorem refl (p : Project) : Keeps p p := ⟨rfl, rfl, rfl, rfl⟩

theorem trans {p q r : Project} (h : Keeps p q) (h' : Keeps q r) : Keeps p r :=
  ⟨h'.store.trans h.store, h'.references.trans h.references, h'.root.trans h.root,
    h'.cancelled.trans h.cancelled⟩

theorem publish (p : Project) (e : UpdateEvent) : Keeps p (p.publish e) := ⟨rfl, rfl, rfl, rfl⟩

theorem call (w : World) (p : Project) (c : Call) {act : Project → Project × Except Cause Unit}
    (hact : ∀ p, Keeps p (act p).1) : Keeps p (p.call w c act).1 := by
  unfold Project.call
  cases w.refusal? p.calls c with
  | some message => exact ⟨rfl, rfl, rfl, rfl⟩
  | none =>
    have hasked : Keeps p { p with calls := p.calls + 1 } := ⟨rfl, rfl, rfl, rfl⟩
    exact hasked.trans (hact _)

theorem change (f : Repository → Repository) (p : Project) : Keeps p (Project.change f p).1 :=
  ⟨rfl, rfl, rfl, rfl⟩

theorem withDisk (f : Repository → Disk → Disk × Repository × Except Error Unit) (p : Project) :
    Keeps p (Project.withDisk f p).1 := ⟨rfl, rfl, rfl, rfl⟩

theorem forgetFile (w : World) (p : Project) (path : Path) : Keeps p (p.forgetFile w path).1 := by
  have hcall := fun (p : Project) c f => call w p c (change f)
  unfold Project.forgetFile
  have h1 := hcall p (.deleteNodes path) fun r => (r.deleteNodesByFile path).1
  revert h1
  rcases p.call w (.deleteNodes path) _ with ⟨q, _ | _⟩
  · exact id
  · exact fun h1 => h1.trans (hcall _ _ _)

theorem saveOutput (w : World) (p : Project) (nodes : List Node) (edges : List Edge) :
    Keeps p (p.saveOutput w nodes edges).1 := by
  have hcall := fun (p : Project) c f => call w p c (change f)
  unfold Project.saveOutput
  have h1 := hcall p .saveNodes (·.saveNodes nodes)
  revert h1
  rcases p.call w .saveNodes _ with ⟨q, _ | _⟩
  · exact id
  · exact fun h1 => h1.trans (hcall _ _ _)

end Keeps

/-! ## Removing a file -/

/-- What removing a file did: its declarations and edges are gone, with the edges of other files
that touched one of the declarations, which are kept aside. -/
structure Dropped (before : Store) (path : Path) (after : Store) (removal : Removal) : Prop where
  coherent : after.Coherent
  mem_nodes : ∀ {i}, i ∈ removal.nodes ↔ ∃ n, before.node? i = some n ∧ n.file.parts = path.parts
  node? : ∀ {i n}, after.node? i = some n ↔ before.node? i = some n ∧ n.file.parts ≠ path.parts
  edge? : ∀ {i e}, after.edge? i = some e ↔ before.edge? i = some e ∧
    e.file.map Path.parts ≠ some path.parts ∧ ¬ Store.Touches e removal.nodes
  mem_orphaned : ∀ {e}, e ∈ removal.orphaned ↔ before.edge? e.id = some e ∧
    e.file.map Path.parts ≠ some path.parts ∧ Store.Touches e removal.nodes

theorem getElem?_foldl_insert (es : List Edge) (m : ExtTreeMap EdgeId Edge) (i : EdgeId) :
    (es.foldl (fun m e => m.insert e.id e) m)[i]? = (es.reverse.find? (·.id == i)).or m[i]? := by
  induction es generalizing m with
  | nil => rfl
  | cons e es ih =>
    rw [List.foldl_cons, ih, List.reverse_cons, List.find?_append]
    by_cases h : e.id = i <;> simp [ExtTreeMap.getElem?_insert, h]

theorem mem_touching {s : Store} (h : s.Coherent) {id : NodeId} {e : Edge} :
    e ∈ s.incomingEdges id ++ s.outgoingEdges id ↔
      s.edge? e.id = some e ∧ (e.source = id ∨ e.target = id) := by
  rw [List.mem_append, h.incomingEdges_eq, h.outgoingEdges_eq, List.mem_filter, List.mem_filter,
    Store.mem_allEdges h, beq_iff_eq, beq_iff_eq]
  grind

theorem distinct_touching {s : Store} (h : s.Coherent) (id : NodeId) :
    Store.Distinct Edge.id (s.incomingEdges id ++ s.outgoingEdges id) := by
  intro a ha b hb he
  have ha' := ((mem_touching h).1 ha).1
  rw [he, ((mem_touching h).1 hb).1] at ha'
  exact (Option.some.inj ha').symm

/-- One turn of the loop that takes dangling edges out. -/
def takeTouching (acc : Store × ExtTreeMap EdgeId Edge × Nat) (id : NodeId) :
    Store × ExtTreeMap EdgeId Edge × Nat :=
  ((acc.1.removeEdgesByNode id).1,
   (acc.1.incomingEdges id ++ acc.1.outgoingEdges id).foldl (fun m e => m.insert e.id e) acc.2.1,
   acc.2.2 + (acc.1.removeEdgesByNode id).2)

theorem foldl_takeTouching {acc : Store × ExtTreeMap EdgeId Edge × Nat} (h : acc.1.Coherent)
    (ids : List NodeId) :
    (ids.foldl takeTouching acc).1 = acc.1.removeDangling ids ∧
    ((∀ i e, acc.2.1[i]? = some e → acc.1.edge? i = none) →
      ∀ i e, (ids.foldl takeTouching acc).2.1[i]? = some e ↔
        (acc.1.edge? i = some e ∧ Store.Touches e ids) ∨ acc.2.1[i]? = some e) := by
  induction ids generalizing acc with
  | nil => simp [Store.removeDangling, Store.touches_nil]
  | cons id ids ih =>
    obtain ⟨hfst, hsnd⟩ := @ih (takeTouching acc id) (h.removeEdgesByNode id)
    refine ⟨hfst, fun hacc => ?_⟩
    have hturn : ∀ i e, (takeTouching acc id).2.1[i]? = some e ↔
        (acc.1.edge? i = some e ∧ (e.source = id ∨ e.target = id)) ∨ acc.2.1[i]? = some e := by
      intro i e
      change ((acc.1.incomingEdges id ++ acc.1.outgoingEdges id).foldl
        (fun m e => m.insert e.id e) acc.2.1)[i]? = some e ↔ _
      rw [getElem?_foldl_insert, Store.find?_reverse_or_eq_some (distinct_touching h id),
        mem_touching h]
      constructor
      · rintro (⟨⟨he, ht⟩, rfl⟩ | ⟨-, he⟩)
        · exact .inl ⟨he, ht⟩
        · exact .inr he
      · rintro (⟨he, ht⟩ | he)
        · have hid := h.edge_id he
          exact .inl ⟨⟨by rwa [hid], ht⟩, hid⟩
        · refine .inr ⟨fun e' he' hid => ?_, he⟩
          have := ((mem_touching h).1 he').1
          rw [hid, hacc i e he] at this
          cases this
    have hleft : ∀ i e, (takeTouching acc id).1.edge? i = some e ↔
        acc.1.edge? i = some e ∧ ¬ (e.source = id ∨ e.target = id) :=
      fun i e => Store.edge?_removeEdgesByNode h
    have hgone : ∀ i e, (takeTouching acc id).2.1[i]? = some e →
        (takeTouching acc id).1.edge? i = none := by
      intro i e he
      apply Option.eq_none_iff_forall_not_mem.2
      intro e' he'
      obtain ⟨he1, hn⟩ := (hleft i e').1 he'
      rcases (hturn i e).1 he with ⟨he2, ht⟩ | he2
      · rw [he1] at he2
        cases he2
        exact hn ht
      · rw [hacc i e he2] at he1
        cases he1
    intro i e
    rw [List.foldl_cons, hsnd hgone, hleft, hturn, Store.touches_cons]
    grind

/-- **Removing a file.** -/
theorem dropped_dropFile {p : Project} (h : p.store.Coherent) (path : Path) :
    Dropped p.store path (p.dropFile path).1.store (p.dropFile path).2 := by
  have h1 := h.removeNodesByFile path
  have h2 := h1.removeEdgesByFile path
  obtain ⟨hstore, horphans⟩ := @foldl_takeTouching
    (((p.store.removeNodesByFile path).1.removeEdgesByFile path).1, ∅, 0) h2
    (p.store.removeNodesByFile path).2
  have hnodes : (p.dropFile path).2.nodes = (p.store.removeNodesByFile path).2 := rfl
  have hafter : (p.dropFile path).1.store =
      ((p.store.removeNodesByFile path).1.removeEdgesByFile path).1.removeDangling
        (p.dropFile path).2.nodes := hstore
  have hvalues : (p.dropFile path).2.orphaned =
      ((p.store.removeNodesByFile path).2.foldl takeTouching
        (((p.store.removeNodesByFile path).1.removeEdgesByFile path).1, ∅, 0)).2.1.values := rfl
  have hleft : ∀ i e, ((p.store.removeNodesByFile path).1.removeEdgesByFile path).1.edge? i =
      some e ↔ p.store.edge? i = some e ∧ e.file.map Path.parts ≠ some path.parts :=
    fun i e => Store.edge?_removeEdgesByFile h1
  refine ⟨hafter ▸ h2.removeDangling _, fun {i} => ?_, fun {i n} => ?_, fun {i e} => ?_,
    fun {e} => ?_⟩
  · rw [hnodes, Store.mem_removeNodesByFile h]
  · rw [hafter, Store.node?, Store.nodes_removeDangling, Store.nodes_removeEdgesByFile]
    change (p.store.removeNodesByFile path).1.node? i = some n ↔ _
    rw [Store.node?_removeNodesByFile h, Option.filter_eq_some_iff, bne_iff_ne]
  · rw [hafter, Store.edge?_removeDangling h2, hleft, and_assoc]
  · rw [hvalues, mem_values_iff]
    simp only [horphans (by simp), hleft, and_assoc, hnodes]
    constructor
    · rintro ⟨i, ⟨he, hf, ht⟩ | he⟩
      · rw [h.edge_id he]
        exact ⟨he, hf, ht⟩
      · simp at he
    · rintro ⟨he, hf, ht⟩
      exact ⟨e.id, .inl ⟨he, hf, ht⟩⟩

/-- A file is dropped from the live graph, whether or not the repository forgets it. -/
theorem removeFile_cases (w : World) (p : Project) (s : Summary) (path : Path) :
    ∃ q s', Keeps (p.dropFile path).1 q ∧
      ((∃ e, p.removeFile w s path = (q, s', .error e)) ∨
        p.removeFile w s path = (q, s', .ok (p.dropFile path).2)) := by
  unfold removeFile
  dsimp only
  generalize hforget : forgetFile w _ _ = forgotten
  have hkeeps : Keeps (p.dropFile path).1 forgotten.1 := hforget ▸ Keeps.forgetFile w _ path
  rcases forgotten with ⟨q, cause | _⟩
  · exact ⟨q, _, hkeeps, .inl ⟨.persistence path cause, rfl⟩⟩
  · exact ⟨q, _, hkeeps, .inr rfl⟩

theorem Dropped.closed {before after : Store} {path : Path} {r : Removal}
    (h : Dropped before path after r) (hc : before.Closed) : after.Closed := by
  have hstays : ∀ i, before.hasNode i = true → i ∉ r.nodes → after.hasNode i = true := by
    intro i hi hr
    obtain ⟨n, hn⟩ := Store.hasNode_iff.1 hi
    refine Store.hasNode_iff.2 ⟨n, h.node?.2 ⟨hn, fun hf => hr (h.mem_nodes.2 ⟨n, hn, hf⟩)⟩⟩
  intro i e he
  obtain ⟨he, -, ht⟩ := h.edge?.1 he
  rw [Store.Touches, not_or] at ht
  exact ⟨hstays _ (hc i e he).1 ht.1, hstays _ (hc i e he).2 ht.2⟩

/-! ## Taking an analysis in -/

/-- The store after an analysis was taken in, with the edges that fit again. -/
def integrated (s : Store) (path : Path) (output : Output) (orphaned : List Edge) : Store :=
  let added := (s.addNodes output.nodes).addEdges (output.edges.map (ownEdge path))
  added.addEdges (orphaned.filter fun e => added.hasNode e.source && added.hasNode e.target)

theorem ownEdge_id (path : Path) (e : Edge) : (ownEdge path e).id = e.id := by
  unfold ownEdge
  cases e.file <;> rfl

theorem ownEdge_source (path : Path) (e : Edge) : (ownEdge path e).source = e.source := by
  unfold ownEdge
  cases e.file <;> rfl

theorem ownEdge_target (path : Path) (e : Edge) : (ownEdge path e).target = e.target := by
  unfold ownEdge
  cases e.file <;> rfl

theorem ownEdge_kind (path : Path) (e : Edge) : (ownEdge path e).kind = e.kind := by
  unfold ownEdge
  cases e.file <;> rfl

section Integrated

variable (s : Store) (path : Path) (output : Output) (orphaned : List Edge)

theorem nodes_integrated :
    (integrated s path output orphaned).nodes = (s.addNodes output.nodes).nodes := by
  rw [integrated, Store.nodes_addEdges, Store.nodes_addEdges]

theorem node?_integrated (i : NodeId) :
    (integrated s path output orphaned).node? i =
      (output.nodes.reverse.find? (·.id == i)).or (s.node? i) := by
  rw [Store.node?, nodes_integrated]
  exact s.node?_addNodes output.nodes i

theorem hasNode_integrated {i : NodeId} :
    (integrated s path output orphaned).hasNode i = true ↔
      i ∈ output.nodes.map Node.id ∨ s.hasNode i = true := by
  rw [Store.hasNode_iff, Store.hasNode_iff, List.mem_map]
  simp only [node?_integrated, Option.or_eq_some_iff, Store.find?_reverse_eq_none]
  constructor
  · rintro ⟨n, hn | ⟨-, hn⟩⟩
    · exact .inl ⟨n, List.mem_reverse.1 (List.mem_of_find?_eq_some hn),
        by simpa using List.find?_some hn⟩
    · exact .inr ⟨n, hn⟩
  · intro hi
    cases hf : output.nodes.reverse.find? (fun n => n.id == i) with
    | some n => exact ⟨n, .inl rfl⟩
    | none =>
      rcases hi with ⟨n, hn, hni⟩ | ⟨n, hn⟩
      · exact absurd hni (Store.find?_reverse_eq_none.1 hf n hn)
      · exact ⟨n, .inr ⟨Store.find?_reverse_eq_none.1 hf, hn⟩⟩

/-- An edge is in the store if it fits again, or if the analysis found it, or if it was there. -/
theorem edge?_integrated (i : EdgeId) :
    (integrated s path output orphaned).edge? i =
      (((orphaned.filter fun e => (integrated s path output orphaned).hasNode e.source &&
          (integrated s path output orphaned).hasNode e.target).reverse.find? (·.id == i)).or
        ((output.edges.map (ownEdge path)).reverse.find? (·.id == i))).or (s.edge? i) := by
  have hnode : ∀ id, (integrated s path output orphaned).hasNode id =
      ((s.addNodes output.nodes).addEdges (output.edges.map (ownEdge path))).hasNode id := by
    intro id
    rw [Store.hasNode, nodes_integrated, Store.hasNode, Store.nodes_addEdges]
  simp only [hnode]
  rw [integrated, Store.edge?_addEdges, Store.edge?_addEdges, Store.edge?_addNodes, Option.or_assoc]

end Integrated

/-- The project after an analysis was taken into the live graph, before it is stored. -/
def absorb (p : Project) (path : Path) (output : Output) (orphaned : List Edge) : Project :=
  let edges := output.edges.map (ownEdge path)
  let p := p.addOutput path output.nodes edges output.symbols
  { p with store := p.store.addEdges (p.restorable orphaned) }

theorem store_absorb (p : Project) (path : Path) (output : Output) (orphaned : List Edge) :
    (p.absorb path output orphaned).store = integrated p.store path output orphaned := rfl

theorem integrate_cases (w : World) (p : Project) (s : Summary) (path : Path) (output : Output)
    (orphaned : List Edge) :
    ∃ q s', Keeps (p.absorb path output orphaned) q ∧
      ((∃ e, p.integrate w s path output orphaned = (q, s', .error e)) ∨
        p.integrate w s path output orphaned = (q, s', .ok ())) := by
  unfold integrate
  dsimp only
  generalize hsave : saveOutput w _ _ _ = saved
  have hkeeps : Keeps (p.absorb path output orphaned) saved.1 := hsave ▸ Keeps.saveOutput w _ _ _
  rcases saved with ⟨q, cause | _⟩
  · exact ⟨q, _, hkeeps, .inl ⟨.persistence path cause, rfl⟩⟩
  · exact ⟨q, _, hkeeps, .inr rfl⟩

theorem coherent_integrated {s : Store} (h : s.Coherent) (path : Path) (output : Output)
    (orphaned : List Edge) : (integrated s path output orphaned).Coherent :=
  ((h.addNodes _).addEdges _).addEdges _

/-- An analysis whose edges end at its own declarations or at known ones keeps the store closed. -/
theorem closed_integrated {s : Store} (hc : s.Closed) (path : Path) (output : Output)
    (orphaned : List Edge)
    (hends : ∀ e ∈ output.edges,
      (e.source ∈ output.nodes.map Node.id ∨ s.hasNode e.source = true) ∧
      (e.target ∈ output.nodes.map Node.id ∨ s.hasNode e.target = true)) :
    (integrated s path output orphaned).Closed := by
  intro i e he
  rw [edge?_integrated, Option.or_eq_some_iff, Option.or_eq_some_iff] at he
  rcases he with (he | ⟨-, he⟩) | ⟨-, he⟩
  · have hm := List.mem_filter.1 (List.mem_reverse.1 (List.mem_of_find?_eq_some he))
    exact Bool.and_eq_true_iff.1 hm.2
  · obtain ⟨e', he', rfl⟩ := List.mem_map.1 (List.mem_reverse.1 (List.mem_of_find?_eq_some he))
    rw [ownEdge_source, ownEdge_target, hasNode_integrated, hasNode_integrated]
    exact hends e' he'
  · rw [hasNode_integrated, hasNode_integrated]
    exact ⟨.inr (hc i e he).1, .inr (hc i e he).2⟩

end Project

end CodeGraph

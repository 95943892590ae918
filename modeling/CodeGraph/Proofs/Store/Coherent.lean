import CodeGraph.Graph.Store
import CodeGraph.Proofs.Index

/-!
# The indices of a store agree with its content

A store is coherent if each of its indices describes the stored nodes or edges. The empty store is
coherent and every operation keeps it so, whatever node or edge it replaces or takes out.

* `Store.Coherent`: the invariant.
* `Store.node?_addNode`, `Store.edge?_addEdge` and the like: what a look-up finds after each
  operation.
* **`Store.Coherent.ext`**: two coherent stores with the same nodes and edges are equal.
-/

namespace CodeGraph

open Std

namespace Store

/-- Nodes and edges stand under their identifiers, and the four indices describe them: edges by
source, by target and by the file they were seen in, nodes by their file. -/
structure Coherent (s : Store) : Prop where
  node_id : ∀ {i n}, s.node? i = some n → n.id = i
  edge_id : ∀ {i e}, s.edge? i = some e → e.id = i
  outgoing : Index.Describes s.outgoing s.edges fun e => some e.source
  incoming : Index.Describes s.incoming s.edges fun e => some e.target
  fileNodes : Index.Describes s.fileNodes s.nodes fun n => some n.file.parts
  fileEdges : Index.Describes s.fileEdges s.edges fun e => e.file.map Path.parts

theorem coherent_empty : empty.Coherent where
  node_id h := by simp [empty, node?] at h
  edge_id h := by simp [empty, edge?] at h
  outgoing := .empty
  incoming := .empty
  fileNodes := .empty
  fileEdges := .empty

/-- A coherent store is determined by its nodes and edges. -/
theorem Coherent.ext {s t : Store} (hs : s.Coherent) (ht : t.Coherent)
    (hn : ∀ i, s.node? i = t.node? i) (he : ∀ i, s.edge? i = t.edge? i) : s = t := by
  obtain ⟨nodes, edges, outgoing, incoming, fileNodes, fileEdges⟩ := s
  obtain ⟨nodes', edges', outgoing', incoming', fileNodes', fileEdges'⟩ := t
  obtain rfl : nodes = nodes' := ExtTreeMap.ext_getElem? hn
  obtain rfl : edges = edges' := ExtTreeMap.ext_getElem? he
  obtain rfl := hs.outgoing.eq ht.outgoing
  obtain rfl := hs.incoming.eq ht.incoming
  obtain rfl := hs.fileNodes.eq ht.fileNodes
  obtain rfl := hs.fileEdges.eq ht.fileEdges
  rfl

/-! ## Lists with distinct identifiers -/

section Distinct

variable {α : Type} {id : α → String} {l : List α}

/-- No two members of a list share an identifier. -/
def Distinct (id : α → String) (l : List α) : Prop := ∀ a ∈ l, ∀ b ∈ l, id a = id b → a = b

theorem distinct_of_nodup (h : (l.map id).Nodup) : Distinct id l := by
  induction l with
  | nil => simp [Distinct]
  | cons a l ih =>
    rw [List.map_cons, List.nodup_cons] at h
    intro x hx y hy he
    rcases List.mem_cons.1 hx with rfl | hxl <;> rcases List.mem_cons.1 hy with rfl | hyl
    · rfl
    · exact absurd (List.mem_map.2 ⟨y, hyl, he.symm⟩) h.1
    · exact absurd (List.mem_map.2 ⟨x, hxl, he⟩) h.1
    · exact ih h.2 x hxl y hyl he

theorem find?_reverse_eq_some (hl : Distinct id l) {i : String} {a : α} :
    l.reverse.find? (fun x => id x == i) = some a ↔ a ∈ l ∧ id a = i := by
  constructor
  · intro h
    exact ⟨List.mem_reverse.1 (List.mem_of_find?_eq_some h), by simpa using List.find?_some h⟩
  · rintro ⟨ha, hi⟩
    cases h : l.reverse.find? (fun x => id x == i) with
    | none =>
      have := List.find?_eq_none.1 h a (List.mem_reverse.2 ha)
      simp [hi] at this
    | some b =>
      have hb : id b = i := by simpa using List.find?_some h
      have hbl : b ∈ l := List.mem_reverse.1 (List.mem_of_find?_eq_some h)
      rw [hl b hbl a ha (hb.trans hi.symm)]

theorem find?_reverse_eq_none {i : String} :
    l.reverse.find? (fun x => id x == i) = none ↔ ∀ a ∈ l, id a ≠ i := by
  simp [List.find?_eq_none]

theorem find?_reverse_or_eq_some (hl : Distinct id l) {i : String} {a : α} {o : Option α} :
    (l.reverse.find? (fun x => id x == i)).or o = some a ↔
      (a ∈ l ∧ id a = i) ∨ (∀ b ∈ l, id b ≠ i) ∧ o = some a := by
  rw [Option.or_eq_some_iff, find?_reverse_eq_some hl, find?_reverse_eq_none]

end Distinct

/-! ## Adding a node -/

section AddNode

variable (s : Store)

theorem node?_addNode (n : Node) (i : NodeId) :
    (s.addNode n).node? i = if n.id = i then some n else s.node? i := by
  simp [node?, addNode, ExtTreeMap.getElem?_insert]

theorem node?_addNodes (ns : List Node) (i : NodeId) :
    (s.addNodes ns).node? i = (ns.reverse.find? (·.id == i)).or (s.node? i) := by
  induction ns generalizing s with
  | nil => rfl
  | cons n ns ih =>
    change ((s.addNode n).addNodes ns).node? i = _
    rw [ih, node?_addNode, List.reverse_cons, List.find?_append]
    by_cases h : n.id = i <;> simp [h]

@[simp] theorem edge?_addNodes (ns : List Node) (i : EdgeId) :
    (s.addNodes ns).edge? i = s.edge? i := by
  induction ns generalizing s with
  | nil => rfl
  | cons n ns ih => exact ih (s.addNode n)

end AddNode

theorem Coherent.addNode {s : Store} (h : s.Coherent) (n : Node) : (s.addNode n).Coherent where
  node_id {i m} hm := by
    rw [node?_addNode] at hm
    split at hm
    · rename_i hi
      cases hm
      exact hi
    · exact h.node_id hm
  edge_id := h.edge_id
  outgoing := h.outgoing
  incoming := h.incoming
  fileEdges := h.fileEdges
  fileNodes := by
    change Index.Describes (Index.insert (s.unindexReplacedNode n) n.file.parts n.id)
      (s.nodes.insert n.id n) _
    unfold unindexReplacedNode
    cases hn : s.node? n.id with
    | none => exact h.fileNodes.insertAt n hn
    | some previous =>
      by_cases hf : previous.file.same n.file = true
      · have hk : n.file.parts = previous.file.parts := (beq_iff_eq.1 hf).symm
        simp only [hf, if_true]
        exact h.fileNodes.insertAt_same hn (congrArg some hk)
      · simp only [hf]
        exact h.fileNodes.insertAt_eraseAt hn

theorem Coherent.addNodes {s : Store} (h : s.Coherent) (ns : List Node) :
    (s.addNodes ns).Coherent := by
  induction ns generalizing s with
  | nil => exact h
  | cons n ns ih => exact ih (h.addNode n)

/-! ## Removing nodes -/

section RemoveNode

variable (s : Store)

theorem node?_removeNodesByFile_eq (path : Path) (i : NodeId) :
    (s.removeNodesByFile path).1.node? i =
      if i ∈ (s.removeNodesByFile path).2 then none else s.node? i :=
  getElem?_foldl_erase _ _ _

@[simp] theorem edge?_removeNodesByFile (path : Path) (i : EdgeId) :
    (s.removeNodesByFile path).1.edge? i = s.edge? i := rfl

end RemoveNode

theorem Coherent.removeNode {s : Store} (h : s.Coherent) (id : NodeId) :
    (s.removeNode id).1.Coherent := by
  unfold Store.removeNode
  cases hn : s.node? id with
  | none => exact h
  | some n =>
    refine ⟨fun {i m} hm => ?_, h.edge_id, h.outgoing, h.incoming, ?_, h.fileEdges⟩
    · simp only [node?, ExtTreeMap.getElem?_erase] at hm
      split at hm
      · cases hm
      · exact h.node_id hm
    · exact h.fileNodes.eraseAt hn

theorem foldl_fst {ι : Type} {f : Store → ι → Store} {g : Store × Nat → ι → Store × Nat}
    (hg : ∀ p i, (g p i).1 = f p.1 i) (is : List ι) (p : Store × Nat) :
    (is.foldl g p).1 = is.foldl f p.1 := by
  induction is generalizing p with
  | nil => rfl
  | cons i is ih => rw [List.foldl_cons, ih, hg, List.foldl_cons]

theorem removeNodes_fst (s : Store) (ids : List NodeId) :
    (s.removeNodes ids).1 = ids.foldl (fun s id => (s.removeNode id).1) s := by
  refine foldl_fst (fun p id => ?_) ids (s, 0)
  rcases h : p.1.removeNode id with ⟨t, _ | n⟩ <;> simp only [h]

theorem Coherent.removeNodes {s : Store} (h : s.Coherent) (ids : List NodeId) :
    (s.removeNodes ids).1.Coherent := by
  rw [removeNodes_fst]
  induction ids generalizing s with
  | nil => exact h
  | cons id ids ih => exact ih (h.removeNode id)

theorem mem_removeNodesByFile {s : Store} (h : s.Coherent) (path : Path) (i : NodeId) :
    i ∈ (s.removeNodesByFile path).2 ↔ ∃ n, s.node? i = some n ∧ n.file.parts = path.parts := by
  simp only [removeNodesByFile, List.mem_filter, Index.mem_values, h.fileNodes.mem_bucket,
    Option.some.injEq]
  constructor
  · rintro ⟨hn, -⟩
    exact hn
  · rintro ⟨n, hn, hf⟩
    refine ⟨⟨n, hn, hf⟩, ?_⟩
    change s.nodes[i]? = some n at hn
    simp [hasNode, ExtTreeMap.contains_eq_isSome_getElem?, hn]

theorem node?_removeNodesByFile {s : Store} (h : s.Coherent) (path : Path) (i : NodeId) :
    (s.removeNodesByFile path).1.node? i =
      (s.node? i).filter fun n => n.file.parts != path.parts := by
  rw [node?_removeNodesByFile_eq]
  have hi := mem_removeNodesByFile h path i
  cases hn : s.node? i with
  | none => simp
  | some n =>
    simp only [hn, Option.some.injEq, exists_eq_left'] at hi
    by_cases hf : n.file.parts = path.parts
    · simp [Option.filter_some, hi.2 hf, hf]
    · simp [Option.filter_some, mt hi.1 hf, hf]

theorem Coherent.removeNodesByFile {s : Store} (h : s.Coherent) (path : Path) :
    (s.removeNodesByFile path).1.Coherent := by
  refine ⟨fun {i n} hn => ?_, h.edge_id, h.outgoing, h.incoming, ⟨fun k i => ?_, ?_⟩, h.fileEdges⟩
  · rw [node?_removeNodesByFile h, Option.filter_eq_some_iff] at hn
    exact h.node_id hn.1
  · change i ∈ Index.bucket (Index.dropKey s.fileNodes path.parts) k ↔
      ∃ n, (s.removeNodesByFile path).1.node? i = some n ∧ some n.file.parts = some k
    rw [Index.mem_bucket_dropKey, h.fileNodes.mem_bucket, node?_removeNodesByFile h]
    constructor
    · rintro ⟨hk, n, hn, hf⟩
      cases hf
      exact ⟨n, Option.filter_eq_some_iff.2 ⟨hn, by simpa using hk⟩, rfl⟩
    · rintro ⟨n, hn, hf⟩
      rw [Option.filter_eq_some_iff] at hn
      cases hf
      exact ⟨by simpa using hn.2, n, hn.1, rfl⟩
  · exact h.fileNodes.proper.dropKey _

/-! ## Adding an edge -/

section AddEdge

variable (s : Store)

theorem indexFile_eq (index : Index (List Part) EdgeId) (e : Edge) :
    indexFile index e = Index.insertAt index (e.file.map Path.parts) e.id := by
  unfold indexFile
  cases e.file <;> rfl

theorem unindexFile_eq (index : Index (List Part) EdgeId) (e : Edge) :
    unindexFile index e = Index.eraseAt index (e.file.map Path.parts) e.id := by
  unfold unindexFile
  cases e.file <;> rfl

theorem edges_addEdge (e : Edge) : (s.addEdge e).edges = s.edges.insert e.id e := by
  unfold addEdge
  cases s.edge? e.id <;> rfl

theorem edge?_addEdge (e : Edge) (i : EdgeId) :
    (s.addEdge e).edge? i = if e.id = i then some e else s.edge? i := by
  simp [edge?, edges_addEdge, ExtTreeMap.getElem?_insert]

theorem nodes_addEdge (e : Edge) : (s.addEdge e).nodes = s.nodes := by
  unfold addEdge
  cases s.edge? e.id <;> rfl

theorem nodes_addEdges (es : List Edge) : (s.addEdges es).nodes = s.nodes := by
  induction es generalizing s with
  | nil => rfl
  | cons e es ih => exact (ih (s.addEdge e)).trans (s.nodes_addEdge e)

theorem edge?_addEdges (es : List Edge) (i : EdgeId) :
    (s.addEdges es).edge? i = (es.reverse.find? (·.id == i)).or (s.edge? i) := by
  induction es generalizing s with
  | nil => rfl
  | cons e es ih =>
    change ((s.addEdge e).addEdges es).edge? i = _
    rw [ih, edge?_addEdge, List.reverse_cons, List.find?_append]
    by_cases h : e.id = i <;> simp [h]

end AddEdge

/-- An index of edges by a key that every edge has, after an edge took the place of another. -/
theorem describes_replaced {index : Index NodeId EdgeId} {edges : ExtTreeMap EdgeId Edge}
    {key : Edge → NodeId} (h : Index.Describes index edges fun e => some (key e))
    {e previous : Edge} (hp : edges[e.id]? = some previous) :
    Index.Describes (if key e == key previous then Index.insert index (key e) e.id
      else Index.erase (Index.insert index (key e) e.id) (key previous) e.id)
      (edges.insert e.id e) fun e => some (key e) := by
  by_cases hk : key e = key previous
  · rw [if_pos (beq_iff_eq.2 hk)]
    exact h.insertAt_same hp (congrArg some hk)
  · rw [if_neg (mt beq_iff_eq.1 hk)]
    exact h.eraseAt_insertAt hp fun he => hk (Option.some.inj he)

theorem Coherent.addEdge {s : Store} (h : s.Coherent) (e : Edge) : (s.addEdge e).Coherent := by
  have hid : ∀ {i e'}, (s.addEdge e).edge? i = some e' → e'.id = i := by
    intro i e' he
    rw [edge?_addEdge] at he
    split at he
    · rename_i hi
      cases he
      exact hi
    · exact h.edge_id he
  have hnode : ∀ {i n}, (s.addEdge e).node? i = some n → n.id = i := by
    intro i n hn
    rw [node?, nodes_addEdge] at hn
    exact h.node_id hn
  unfold Store.addEdge at hid hnode ⊢
  cases hp : s.edge? e.id with
  | none =>
    simp only [hp] at hid hnode
    refine ⟨hnode, hid, h.outgoing.insertAt e hp, h.incoming.insertAt e hp, h.fileNodes, ?_⟩
    simp only [insertEdge, indexFile_eq]
    exact h.fileEdges.insertAt e hp
  | some previous =>
    obtain hpid : previous.id = e.id := h.edge_id hp
    simp only [hp] at hid hnode
    refine ⟨hnode, hid, ?_, ?_, h.fileNodes, ?_⟩
    · simp only [unindexReplaced, insertEdge, hpid]
      exact describes_replaced h.outgoing hp
    · simp only [unindexReplaced, insertEdge, hpid]
      exact describes_replaced h.incoming hp
    · simp only [unindexReplaced, insertEdge, indexFile_eq, unindexFile_eq, hpid, sameFile]
      by_cases hk : e.file.map Path.parts = previous.file.map Path.parts
      · rw [if_pos (beq_iff_eq.2 hk)]
        exact h.fileEdges.insertAt_same hp hk
      · rw [if_neg (mt beq_iff_eq.1 hk)]
        exact h.fileEdges.eraseAt_insertAt hp hk

theorem Coherent.addEdges {s : Store} (h : s.Coherent) (es : List Edge) :
    (s.addEdges es).Coherent := by
  induction es generalizing s with
  | nil => exact h
  | cons e es ih => exact ih (h.addEdge e)

theorem coherent_ofSnapshot (g : Snapshot) : (ofSnapshot g).Coherent :=
  (coherent_empty.addNodes g.nodes).addEdges g.edges

/-! ## Removing edges -/

section RemoveEdge

variable (s : Store)

theorem edge?_removeEdge (id i : EdgeId) :
    (s.removeEdge id).1.edge? i = if id = i then none else s.edge? i := by
  unfold removeEdge
  cases he : s.edge? id with
  | none =>
    by_cases h : id = i
    · simp [← h, he]
    · simp [h]
  | some e => simp [edge?, ExtTreeMap.getElem?_erase]

theorem nodes_removeEdge (id : EdgeId) : (s.removeEdge id).1.nodes = s.nodes := by
  unfold removeEdge
  cases s.edge? id <;> rfl

theorem removeEdges_fst (ids : List EdgeId) :
    (s.removeEdges ids).1 = ids.foldl (fun s id => (s.removeEdge id).1) s := by
  refine foldl_fst (fun p id => ?_) ids (s, 0)
  rcases h : p.1.removeEdge id with ⟨t, _ | e⟩ <;> simp only [h]

theorem edge?_removeEdges (ids : List EdgeId) (i : EdgeId) :
    (s.removeEdges ids).1.edge? i = if i ∈ ids then none else s.edge? i := by
  rw [removeEdges_fst]
  induction ids generalizing s with
  | nil => simp
  | cons id ids ih =>
    rw [List.foldl_cons, ih, edge?_removeEdge]
    by_cases h : id = i
    · simp [h]
    · simp [h, Ne.symm h]

theorem nodes_removeEdges (ids : List EdgeId) : (s.removeEdges ids).1.nodes = s.nodes := by
  rw [removeEdges_fst]
  induction ids generalizing s with
  | nil => rfl
  | cons id ids ih => exact (ih (s.removeEdge id).1).trans (s.nodes_removeEdge id)

end RemoveEdge

theorem Coherent.removeEdge {s : Store} (h : s.Coherent) (id : EdgeId) :
    (s.removeEdge id).1.Coherent := by
  unfold Store.removeEdge
  cases he : s.edge? id with
  | none => exact h
  | some e =>
    obtain rfl := h.edge_id he
    refine ⟨h.node_id, fun {i e'} he' => ?_, h.outgoing.eraseAt he, h.incoming.eraseAt he,
      h.fileNodes, ?_⟩
    · simp only [edge?, ExtTreeMap.getElem?_erase] at he'
      split at he'
      · cases he'
      · exact h.edge_id he'
    · simp only [unindexFile_eq]
      exact h.fileEdges.eraseAt he

theorem Coherent.removeEdges {s : Store} (h : s.Coherent) (ids : List EdgeId) :
    (s.removeEdges ids).1.Coherent := by
  rw [removeEdges_fst]
  induction ids generalizing s with
  | nil => exact h
  | cons id ids ih => exact ih (h.removeEdge id)

theorem Coherent.removeEdgesByFile {s : Store} (h : s.Coherent) (path : Path) :
    (s.removeEdgesByFile path).1.Coherent := h.removeEdges _

theorem Coherent.removeEdgesByNode {s : Store} (h : s.Coherent) (id : NodeId) :
    (s.removeEdgesByNode id).1.Coherent := h.removeEdges _

end Store

end CodeGraph

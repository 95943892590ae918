import CodeGraph.Proofs.Store.Coherent
import Mathlib.Data.List.Dedup

/-!
# Reading through an index is scanning

The store answers by index what a scan of all its nodes or edges would find, in the same order.

* `Store.mem_allNodes`, `Store.mem_allEdges`: the content as lists, in ascending order of
  identifiers.
* `Store.Coherent.outgoingEdges_eq` and the like: each indexed read is a filter of the content.
* `Store.Operation`: a change of a store.
* **`Store.run_reads_scan`**: after any sequence of operations the indices agree with the content,
  and every indexed read is a scan.
-/

namespace CodeGraph

open Std

namespace Store

/-! ## Ascending lists -/

theorem compare_eq_lt_iff {a b : String} : compare a b = .lt ↔ a < b := compareOfLessAndEq_eq_lt

/-- Lists with the same members, in ascending order of a text, are equal. -/
theorem eq_of_ascending {α : Type} {k : α → String} {l m : List α}
    (hl : l.Pairwise fun a b => k a < k b) (hm : m.Pairwise fun a b => k a < k b)
    (h : ∀ a, a ∈ l ↔ a ∈ m) : l = m := by
  have hnd : ∀ l : List α, l.Pairwise (fun a b => k a < k b) → l.Nodup := by
    intro l hl
    refine List.Pairwise.imp ?_ hl
    rintro a b hab rfl
    exact String.lt_irrefl _ hab
  have hperm : l.Perm m := (List.perm_ext_iff_of_nodup (hnd l hl) (hnd m hm)).2 h
  exact hperm.eq_of_pairwise (fun a b _ _ hab hba => absurd hba (String.lt_asymm hab)) hl hm

section Table

variable {β : Type} {table : ExtTreeMap String β} {id : β → String}

theorem ascending_values (hid : ∀ {i b}, table[i]? = some b → id b = i) :
    (table.values.map id).Pairwise (· < ·) := by
  rw [map_values_eq_keys hid, ← ExtTreeMap.map_fst_toList_eq_keys, List.pairwise_map]
  exact table.ordered_keys_toList.imp compare_eq_lt_iff.1

/-- Looking up the ascending identifiers of some entries finds what a scan finds. -/
theorem filterMap_getElem?_eq_filter (hid : ∀ {i b}, table[i]? = some b → id b = i)
    {ids : List String} (hasc : ids.Pairwise (· < ·)) {P : β → Bool}
    (hmem : ∀ i, i ∈ ids ↔ ∃ b, table[i]? = some b ∧ P b = true) :
    ids.filterMap (fun i => table[i]?) = table.values.filter P := by
  have hids : ids = (table.values.filter P).map id := by
    refine eq_of_ascending (k := fun i => i) hasc
      ((ascending_values hid).sublist (List.filter_sublist.map _)) ?_
    intro i
    simp only [hmem, List.mem_map, List.mem_filter, mem_values_iff]
    constructor
    · rintro ⟨b, hb, hP⟩
      exact ⟨b, ⟨⟨i, hb⟩, hP⟩, hid hb⟩
    · rintro ⟨b, ⟨⟨j, hb⟩, hP⟩, rfl⟩
      exact ⟨b, by rwa [hid hb], hP⟩
  rw [hids, List.filterMap_map]
  refine (List.filterMap_congr fun b hb => ?_).trans List.filterMap_some
  obtain ⟨i, hi⟩ := mem_values_iff.1 (List.mem_filter.1 hb).1
  simp only [Function.comp, hid hi, hi]

end Table

theorem ascending_index {κ : Type} [Ord κ] [TransOrd κ] (index : Index κ String) (k : κ) :
    (Index.values index k).Pairwise (· < ·) :=
  (Index.bucket index k).ordered_toList.imp compare_eq_lt_iff.1

/-! ## The content as lists -/

section Content

variable {s : Store}

theorem mem_allNodes (h : s.Coherent) {n : Node} : n ∈ s.allNodes ↔ s.node? n.id = some n := by
  refine mem_values_iff.trans ⟨?_, fun hn => ⟨n.id, hn⟩⟩
  rintro ⟨i, hi⟩
  rwa [h.node_id hi]

theorem mem_allEdges (h : s.Coherent) {e : Edge} : e ∈ s.allEdges ↔ s.edge? e.id = some e := by
  refine mem_values_iff.trans ⟨?_, fun he => ⟨e.id, he⟩⟩
  rintro ⟨i, hi⟩
  rwa [h.edge_id hi]

theorem length_allNodes (s : Store) : s.allNodes.length = s.nodeCount := by
  simp [allNodes, nodeCount, values_eq_map_toList]

theorem length_allEdges (s : Store) : s.allEdges.length = s.edgeCount := by
  simp [allEdges, edgeCount, values_eq_map_toList]

theorem nodup_map_id_allNodes (h : s.Coherent) : (s.allNodes.map (·.id)).Nodup := by
  rw [allNodes, map_values_eq_keys h.node_id]
  exact ExtTreeMap.nodup_keys

theorem nodup_map_id_allEdges (h : s.Coherent) : (s.allEdges.map (·.id)).Nodup := by
  rw [allEdges, map_values_eq_keys h.edge_id]
  exact ExtTreeMap.nodup_keys

theorem hasNode_iff {i : NodeId} : s.hasNode i = true ↔ ∃ n, s.node? i = some n := by
  rw [hasNode, ExtTreeMap.contains_eq_isSome_getElem?, Option.isSome_iff_exists]
  rfl

theorem mem_map_id_allNodes (h : s.Coherent) {i : NodeId} :
    i ∈ s.allNodes.map (·.id) ↔ s.hasNode i = true := by
  rw [hasNode_iff, List.mem_map]
  constructor
  · rintro ⟨n, hn, rfl⟩
    exact ⟨n, (mem_allNodes h).1 hn⟩
  · rintro ⟨n, hn⟩
    obtain rfl := h.node_id hn
    exact ⟨n, (mem_allNodes h).2 hn, rfl⟩

end Content

/-! ## Indexed reads -/

namespace Coherent

variable {s : Store} (h : s.Coherent)
include h

theorem outgoingEdges_eq (id : NodeId) :
    s.outgoingEdges id = s.allEdges.filter fun e => e.source == id :=
  filterMap_getElem?_eq_filter h.edge_id (ascending_index _ _) fun i => by
    simp [Index.mem_values, h.outgoing.mem_bucket]

theorem incomingEdges_eq (id : NodeId) :
    s.incomingEdges id = s.allEdges.filter fun e => e.target == id :=
  filterMap_getElem?_eq_filter h.edge_id (ascending_index _ _) fun i => by
    simp [Index.mem_values, h.incoming.mem_bucket]

theorem edgesByFile_eq (path : Path) :
    s.edgesByFile path = s.allEdges.filter fun e => e.file.any (·.same path) :=
  filterMap_getElem?_eq_filter h.edge_id (ascending_index _ _) fun i => by
    simp [Index.mem_values, h.fileEdges.mem_bucket, Option.any_eq_true, Path.same]

theorem nodesByFile_eq (path : Path) :
    s.nodesByFile path = s.allNodes.filter fun n => n.file.same path :=
  filterMap_getElem?_eq_filter h.node_id (ascending_index _ _) fun i => by
    simp [Index.mem_values, h.fileNodes.mem_bucket, Path.same]

theorem fileCount_eq :
    s.stats.fileCount = (s.allNodes.map fun n => n.file.parts).dedup.length := by
  have hnd : s.fileNodes.keys.Nodup :=
    s.fileNodes.distinct_keys.imp fun hab he => hab (by simp [he])
  have hperm : s.fileNodes.keys.Perm (s.allNodes.map fun n => n.file.parts).dedup := by
    refine (List.perm_ext_iff_of_nodup hnd (List.nodup_dedup _)).2 fun k => ?_
    rw [ExtTreeMap.mem_keys, Index.mem_iff_exists_mem_bucket h.fileNodes.proper, List.mem_dedup,
      List.mem_map]
    simp only [h.fileNodes.mem_bucket, Option.some.injEq]
    constructor
    · rintro ⟨i, n, hn, hk⟩
      exact ⟨n, mem_values_iff.2 ⟨i, hn⟩, hk⟩
    · rintro ⟨n, hn, hk⟩
      obtain ⟨i, hi⟩ := mem_values_iff.1 hn
      exact ⟨i, n, hi, hk⟩
  change s.fileNodes.size = _
  rw [← ExtTreeMap.length_keys, hperm.length_eq]

end Coherent

/-! ## Sequences of operations -/

/-- A change of a store. -/
inductive Operation where
  | addNode (n : Node)
  | addNodes (ns : List Node)
  | addEdge (e : Edge)
  | addEdges (es : List Edge)
  | removeNode (id : NodeId)
  | removeNodes (ids : List NodeId)
  | removeNodesByFile (path : Path)
  | removeEdge (id : EdgeId)
  | removeEdgesByFile (path : Path)
  | removeEdgesByNode (id : NodeId)
  /-- The content is replaced by that of a snapshot. -/
  | load (g : Snapshot)
  | clear

/-- The store after an operation. -/
def Operation.apply (s : Store) : Operation → Store
  | addNode n => s.addNode n
  | addNodes ns => s.addNodes ns
  | addEdge e => s.addEdge e
  | addEdges es => s.addEdges es
  | removeNode id => (s.removeNode id).1
  | removeNodes ids => (s.removeNodes ids).1
  | removeNodesByFile path => (s.removeNodesByFile path).1
  | removeEdge id => (s.removeEdge id).1
  | removeEdgesByFile path => (s.removeEdgesByFile path).1
  | removeEdgesByNode id => (s.removeEdgesByNode id).1
  | load g => ofSnapshot g
  | clear => empty

/-- The store after operations in order. -/
def run (ops : List Operation) : Store := ops.foldl Operation.apply empty

theorem Coherent.apply {s : Store} (h : s.Coherent) (o : Operation) : (o.apply s).Coherent := by
  cases o with
  | addNode n => exact h.addNode n
  | addNodes ns => exact h.addNodes ns
  | addEdge e => exact h.addEdge e
  | addEdges es => exact h.addEdges es
  | removeNode id => exact h.removeNode id
  | removeNodes ids => exact h.removeNodes ids
  | removeNodesByFile path => exact h.removeNodesByFile path
  | removeEdge id => exact h.removeEdge id
  | removeEdgesByFile path => exact h.removeEdgesByFile path
  | removeEdgesByNode id => exact h.removeEdgesByNode id
  | load g => exact coherent_ofSnapshot g
  | clear => exact coherent_empty

theorem coherent_run (ops : List Operation) : (run ops).Coherent := by
  have hfold : ∀ s : Store, s.Coherent → (ops.foldl Operation.apply s).Coherent := by
    induction ops with
    | nil => exact fun s hs => hs
    | cons o ops ih => exact fun s hs => ih _ (hs.apply o)
  exact hfold empty coherent_empty

/-- **After any sequence of operations the indices agree with the content**, and every indexed read
is a scan of the content in ascending order of identifiers. -/
theorem run_reads_scan (ops : List Operation) :
    (run ops).Coherent ∧
    ((run ops).allNodes.map (·.id)).Pairwise (· < ·) ∧
    ((run ops).allEdges.map (·.id)).Pairwise (· < ·) ∧
    (∀ id, (run ops).outgoingEdges id = (run ops).allEdges.filter (·.source == id)) ∧
    (∀ id, (run ops).incomingEdges id = (run ops).allEdges.filter (·.target == id)) ∧
    (∀ path, (run ops).edgesByFile path =
      (run ops).allEdges.filter fun e => e.file.any (·.same path)) ∧
    (∀ path, (run ops).nodesByFile path = (run ops).allNodes.filter (·.file.same path)) ∧
    (run ops).stats.fileCount = ((run ops).allNodes.map (·.file.parts)).dedup.length := by
  have h := coherent_run ops
  exact ⟨h, ascending_values h.node_id, ascending_values h.edge_id, h.outgoingEdges_eq,
    h.incomingEdges_eq, h.edgesByFile_eq, h.nodesByFile_eq, h.fileCount_eq⟩

end Store

end CodeGraph

import CodeGraph.Proofs.Store.Scan

/-!
# What a removal leaves

* `Store.edge?_removeEdgesByFile`, `Store.edge?_removeEdgesByNode`: the edges that stay when those
  of a file, or those at a node, are taken out.
* `Store.removeDangling`, `Store.edge?_removeDangling`: the same for the edges at several nodes.
* `Store.Closed`: every edge has both its ends in the store; `Store.liveEdges`: the edges that do.
-/

namespace CodeGraph

open Std

namespace Store

/-- An edge that leaves or reaches one of some declarations. -/
def Touches (e : Edge) (ids : List NodeId) : Prop := e.source ∈ ids ∨ e.target ∈ ids

theorem touches_nil (e : Edge) : ¬ Touches e [] := by simp [Touches]

theorem touches_cons {e : Edge} {id : NodeId} {ids : List NodeId} :
    Touches e (id :: ids) ↔ (e.source = id ∨ e.target = id) ∨ Touches e ids := by
  simp only [Touches, List.mem_cons]
  grind

/-! ## Edges by file and by node -/

theorem edge?_removeEdges_eq_some {s : Store} {ids : List EdgeId} {i : EdgeId} {e : Edge} :
    (s.removeEdges ids).1.edge? i = some e ↔ s.edge? i = some e ∧ i ∉ ids := by
  rw [edge?_removeEdges]
  split
  · rename_i hi
    simp [hi]
  · rename_i hi
    simp [hi]

theorem edge?_removeEdgesByFile {s : Store} (h : s.Coherent) {path : Path} {i : EdgeId} {e : Edge} :
    (s.removeEdgesByFile path).1.edge? i = some e ↔
      s.edge? i = some e ∧ e.file.map Path.parts ≠ some path.parts := by
  rw [removeEdgesByFile, edge?_removeEdges_eq_some, Index.mem_values, h.fileEdges.mem_bucket]
  refine and_congr_right fun he => not_congr ?_
  change (∃ e', s.edge? i = some e' ∧ _) ↔ _
  simp [he]

theorem edge?_removeEdgesByNode {s : Store} (h : s.Coherent) {id : NodeId} {i : EdgeId} {e : Edge} :
    (s.removeEdgesByNode id).1.edge? i = some e ↔
      s.edge? i = some e ∧ ¬ (e.source = id ∨ e.target = id) := by
  rw [removeEdgesByNode, edge?_removeEdges_eq_some, ExtTreeSet.mem_toList,
    ExtTreeSet.mem_insertMany_list, List.contains_iff_mem, Index.mem_values, h.outgoing.mem_bucket,
    h.incoming.mem_bucket]
  refine and_congr_right fun he => not_congr ?_
  change ((∃ e', s.edge? i = some e' ∧ _) ∨ ∃ e', s.edge? i = some e' ∧ _) ↔ _
  simp [he]

theorem nodes_removeEdgesByFile (s : Store) (path : Path) :
    (s.removeEdgesByFile path).1.nodes = s.nodes := s.nodes_removeEdges _

theorem nodes_removeEdgesByNode (s : Store) (id : NodeId) :
    (s.removeEdgesByNode id).1.nodes = s.nodes := s.nodes_removeEdges _

/-! ## Dangling edges -/

/-- The store without the edges at some declarations. -/
def removeDangling (s : Store) (ids : List NodeId) : Store :=
  ids.foldl (fun s id => (s.removeEdgesByNode id).1) s

theorem Coherent.removeDangling {s : Store} (h : s.Coherent) (ids : List NodeId) :
    (s.removeDangling ids).Coherent := by
  induction ids generalizing s with
  | nil => exact h
  | cons id ids ih => exact ih (h.removeEdgesByNode id)

theorem nodes_removeDangling (s : Store) (ids : List NodeId) :
    (s.removeDangling ids).nodes = s.nodes := by
  induction ids generalizing s with
  | nil => rfl
  | cons id ids ih =>
    exact (ih (s.removeEdgesByNode id).1).trans (s.nodes_removeEdgesByNode id)

theorem edge?_removeDangling {s : Store} (h : s.Coherent) {ids : List NodeId} {i : EdgeId}
    {e : Edge} :
    (s.removeDangling ids).edge? i = some e ↔ s.edge? i = some e ∧ ¬ Touches e ids := by
  induction ids generalizing s with
  | nil => simp [removeDangling, touches_nil]
  | cons id ids ih =>
    change ((s.removeEdgesByNode id).1.removeDangling ids).edge? i = some e ↔ _
    rw [ih (h.removeEdgesByNode id), edge?_removeEdgesByNode h, touches_cons]
    simp only [not_or, and_assoc]

/-! ## Closed stores -/

/-- Every edge has both its ends in the store. -/
def Closed (s : Store) : Prop :=
  ∀ i e, s.edge? i = some e → s.hasNode e.source = true ∧ s.hasNode e.target = true

/-- The edges that have both their ends in the store. -/
def liveEdges (s : Store) : List Edge :=
  s.allEdges.filter fun e => s.hasNode e.source && s.hasNode e.target

theorem mem_liveEdges {s : Store} (h : s.Coherent) {e : Edge} :
    e ∈ s.liveEdges ↔
      s.edge? e.id = some e ∧ s.hasNode e.source = true ∧ s.hasNode e.target = true := by
  rw [liveEdges, List.mem_filter, mem_allEdges h, Bool.and_eq_true]

theorem ascending_liveEdges {s : Store} (h : s.Coherent) :
    s.liveEdges.Pairwise fun a b => a.id < b.id :=
  (List.pairwise_map.1 (ascending_values h.edge_id)).filter _

end Store

end CodeGraph

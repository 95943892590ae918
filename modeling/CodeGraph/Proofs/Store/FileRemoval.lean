import CodeGraph.Proofs.Store.Copy

/-!
# Taking a file out of a graph

A file leaves in three turns: its declarations, the edges seen in it, and the edges that its
declarations leave dangling. An edge may fall under all of them, so what is left and how much went
are told from the graph as it was before the first turn.

* `Store.removeEdgesByNodes`: the last turn; `Store.takeFile`: all three.
* `Store.values_eq_filter`: a table that keeps some entries of another lists them in the same order.
* **`Store.run_takes_file`**: after any sequence of operations.
-/

namespace CodeGraph

open Std

namespace Store

/-! ## Dangling edges, counted -/

/-- Takes out the edges that leave or reach some declarations, and says how many there were. -/
def removeEdgesByNodes (s : Store) (ids : List NodeId) : Store × Nat :=
  ids.foldl (fun (s, n) id =>
    let (s, m) := s.removeEdgesByNode id
    (s, n + m)) (s, 0)

theorem removeEdgesByNodes_fst (s : Store) (ids : List NodeId) :
    (s.removeEdgesByNodes ids).1 = s.removeDangling ids :=
  foldl_fst (fun _ _ => rfl) ids (s, 0)

theorem edgeCount_removeEdgesByNodes (s : Store) (ids : List NodeId) :
    (s.removeEdgesByNodes ids).1.edgeCount + (s.removeEdgesByNodes ids).2 = s.edgeCount := by
  refine edgeCount_foldl (fun acc id => ?_) ids (s, 0)
  have hturn : (acc.1.removeEdgesByNode id).1.edgeCount + (acc.1.removeEdgesByNode id).2 =
      acc.1.edgeCount := edgeCount_removeEdges _ _
  change (acc.1.removeEdgesByNode id).1.edgeCount + (acc.2 + (acc.1.removeEdgesByNode id).2) = _
  omega

/-! ## The three turns -/

/-- What taking out a file leaves, the declarations that went, and how many edges went with them:
those seen in the file, and those left dangling. -/
structure FileRemoval where
  rest : Store
  ids : List NodeId
  own : Nat
  dangling : Nat

/-- Takes out the declarations of a file, the edges seen in it, and the edges left dangling. -/
def takeFile (s : Store) (path : Path) : FileRemoval :=
  let (s, ids) := s.removeNodesByFile path
  let (s, own) := s.removeEdgesByFile path
  let (s, dangling) := s.removeEdgesByNodes ids
  { rest := s, ids, own, dangling }

theorem takeFile_ids (s : Store) (path : Path) :
    (s.takeFile path).ids = (s.removeNodesByFile path).2 := rfl

theorem takeFile_rest (s : Store) (path : Path) :
    (s.takeFile path).rest = ((s.removeNodesByFile path).1.removeEdgesByFile path).1.removeDangling
      (s.takeFile path).ids := removeEdgesByNodes_fst _ _

theorem edgeCount_takeFile (s : Store) (path : Path) :
    (s.takeFile path).rest.edgeCount + ((s.takeFile path).own + (s.takeFile path).dangling) =
      s.edgeCount := by
  have hown : ((s.removeNodesByFile path).1.removeEdgesByFile path).1.edgeCount +
      (s.takeFile path).own = s.edgeCount := edgeCount_removeEdges _ _
  have hdangling : (s.takeFile path).rest.edgeCount + (s.takeFile path).dangling =
      ((s.removeNodesByFile path).1.removeEdgesByFile path).1.edgeCount :=
    edgeCount_removeEdgesByNodes _ _
  omega

/-! ## What is left, in order -/

/-- A table that keeps the entries of another that satisfy a condition lists them in the same
order. -/
theorem values_eq_filter {β : Type} {table rest : ExtTreeMap String β} {id : β → String}
    (hid : ∀ {i : String} {b : β}, table[i]? = some b → id b = i) {P : β → Bool}
    (h : ∀ (i : String) (b : β), rest[i]? = some b ↔ table[i]? = some b ∧ P b = true) :
    rest.values = table.values.filter P := by
  have hrest : ∀ {i : String} {b : β}, rest[i]? = some b → id b = i :=
    fun hb => hid ((h _ _).1 hb).1
  refine eq_of_ascending (List.pairwise_map.1 (ascending_values hrest))
    ((List.pairwise_map.1 (ascending_values hid)).filter P) fun b => ?_
  simp only [List.mem_filter, mem_values_iff, h, exists_and_right]

theorem length_filter_add_notMem {α : Type} [DecidableEq α] (P : α → Bool) (l : List α) :
    (l.filter P).length + (l.filter (· ∉ l.filter P)).length = l.length := by
  have hdrop : l.filter (· ∉ l.filter P) = l.filter fun a => ¬ P a = true :=
    List.filter_congr fun a ha => by simp [List.mem_filter, ha]
  rw [hdrop, ← List.countP_eq_length_filter, ← List.countP_eq_length_filter]
  exact (List.length_eq_countP_add_countP P).symm

section Coherent

variable {s : Store} (h : s.Coherent) (path : Path)
include h

theorem ids_takeFile :
    (s.takeFile path).ids = (s.allNodes.filter (·.file.same path)).map (·.id) := by
  rw [takeFile_ids]
  have hids : (s.removeNodesByFile path).2.Pairwise (· < ·) :=
    (ascending_index s.fileNodes path.parts).filter _
  have hscan : ((s.allNodes.filter (·.file.same path)).map (·.id)).Pairwise (· < ·) :=
    (ascending_values h.node_id).sublist (List.filter_sublist.map _)
  refine eq_of_ascending (k := fun i => i) hids hscan fun i => ?_
  rw [mem_removeNodesByFile h, List.mem_map]
  constructor
  · rintro ⟨n, hn, hf⟩
    obtain rfl := h.node_id hn
    exact ⟨n, List.mem_filter.2 ⟨(mem_allNodes h).2 hn, beq_iff_eq.2 hf⟩, rfl⟩
  · rintro ⟨n, hn, rfl⟩
    obtain ⟨hn, hf⟩ := List.mem_filter.1 hn
    exact ⟨n, (mem_allNodes h).1 hn, beq_iff_eq.1 hf⟩

theorem allNodes_takeFile :
    (s.takeFile path).rest.allNodes = s.allNodes.filter (!·.file.same path) := by
  refine values_eq_filter h.node_id fun i n => ?_
  rw [takeFile_rest, nodes_removeDangling, nodes_removeEdgesByFile]
  change (s.removeNodesByFile path).1.node? i = some n ↔ s.node? i = some n ∧ _
  rw [node?_removeNodesByFile h, Option.filter_eq_some_iff]
  rfl

theorem allEdges_takeFile :
    (s.takeFile path).rest.allEdges = s.allEdges.filter fun e =>
      ¬ e.file.any (·.same path) ∧ e.source ∉ (s.takeFile path).ids ∧
        e.target ∉ (s.takeFile path).ids := by
  have hbare := h.removeNodesByFile path
  refine values_eq_filter h.edge_id fun i e => ?_
  change (s.takeFile path).rest.edge? i = some e ↔ s.edge? i = some e ∧ _
  rw [takeFile_rest, edge?_removeDangling (hbare.removeEdgesByFile path),
    edge?_removeEdgesByFile hbare, edge?_removeNodesByFile, and_assoc, Touches, not_or,
    decide_eq_true_iff]
  refine and_congr_right fun _ => and_congr_left fun _ => not_congr ?_
  simp [Option.any_eq_true, Path.same]

end Coherent

/-- **After any sequence of operations a file is taken out exactly.** Its declarations are listed in
ascending order and gone, all others are as they were; the edges that remain are those that were not
seen in the file and touch none of its declarations, as they were; and the two counts add up to the
number of edges that are gone. -/
theorem run_takes_file (ops : List Operation) (path : Path) :
    let before := run ops
    let after := before.takeFile path
    after.ids = (before.allNodes.filter (·.file.same path)).map (·.id) ∧
    after.ids.Pairwise (· < ·) ∧
    after.rest.allNodes = before.allNodes.filter (!·.file.same path) ∧
    after.rest.allEdges = before.allEdges.filter (fun e =>
      ¬ e.file.any (·.same path) ∧ e.source ∉ after.ids ∧ e.target ∉ after.ids) ∧
    after.own + after.dangling = (before.allEdges.filter (· ∉ after.rest.allEdges)).length := by
  intro before after
  have h : before.Coherent := coherent_run ops
  have hids : after.ids = _ := ids_takeFile h path
  have hedges : after.rest.allEdges = _ := allEdges_takeFile h path
  have hcount : after.rest.edgeCount + (after.own + after.dangling) = before.edgeCount :=
    edgeCount_takeFile before path
  refine ⟨hids, ?_, allNodes_takeFile h path, hedges, ?_⟩
  · rw [hids]
    exact (ascending_values h.node_id).sublist (List.filter_sublist.map _)
  · have hlen := length_filter_add_notMem (fun e => ¬ e.file.any (·.same path) ∧
      e.source ∉ after.ids ∧ e.target ∉ after.ids) before.allEdges
    rw [← hedges, length_allEdges, length_allEdges] at hlen
    omega

end Store

end CodeGraph

import CodeGraph.Proofs.Store.Removal

/-!
# Copies of a graph, and its size

* `Store.ofSnapshot_snapshot`: a graph can be built anew from its copy.
* `Store.filter_values_id`: the entries with an identifier in the list of a table.
* **`Store.run_copy_rebuilds`**: after any sequence of operations the copy gives the same store, and
  a store built from any lists holds the last entry for each identifier.
* `Store.size`, `Snapshot.size`: how many declarations and relationships there are.
* `Store.edgeCount_removeEdges`, `Store.nodeCount_removeNodesByFile`: a removal takes out as much as
  it says.
* `Store.removeEdges_eq_self`, `Store.removeNodesByFile_eq_self`: one that finds nothing changes
  nothing.
-/

namespace CodeGraph

open Std

namespace Store

/-! ## Graphs from their copies -/

theorem node?_ofSnapshot (g : Snapshot) (i : NodeId) :
    (ofSnapshot g).node? i = g.nodes.reverse.find? (·.id == i) := by
  rw [node?, ofSnapshot, nodes_addEdges]
  exact (empty.node?_addNodes g.nodes i).trans (by simp [empty, node?])

theorem edge?_ofSnapshot (g : Snapshot) (i : EdgeId) :
    (ofSnapshot g).edge? i = g.edges.reverse.find? (·.id == i) := by
  rw [ofSnapshot, edge?_addEdges, edge?_addNodes]
  simp [empty, edge?]

/-- **A coherent store is what its copy gives.** -/
theorem ofSnapshot_snapshot {s : Store} (h : s.Coherent) : ofSnapshot s.snapshot = s := by
  have hnodes : Distinct Node.id s.allNodes := by
    intro a ha b hb he
    rw [mem_allNodes h] at ha hb
    rw [he, hb] at ha
    exact (Option.some.inj ha).symm
  have hedges : Distinct Edge.id s.allEdges := by
    intro a ha b hb he
    rw [mem_allEdges h] at ha hb
    rw [he, hb] at ha
    exact (Option.some.inj ha).symm
  refine (coherent_ofSnapshot _).ext h (fun i => ?_) (fun i => ?_)
  · ext n
    rw [node?_ofSnapshot]
    change s.allNodes.reverse.find? (·.id == i) = some n ↔ s.node? i = some n
    rw [find?_reverse_eq_some hnodes, mem_allNodes h]
    refine ⟨fun ⟨hn, hi⟩ => hi ▸ hn, fun hn => ?_⟩
    have hi := h.node_id hn
    exact ⟨by rwa [hi], hi⟩
  · ext e
    rw [edge?_ofSnapshot]
    change s.allEdges.reverse.find? (·.id == i) = some e ↔ s.edge? i = some e
    rw [find?_reverse_eq_some hedges, mem_allEdges h]
    refine ⟨fun ⟨he, hi⟩ => hi ▸ he, fun he => ?_⟩
    have hi := h.edge_id he
    exact ⟨by rwa [hi], hi⟩

/-! ## The last entry counts -/

theorem filter_values_id {β : Type} {table : ExtTreeMap String β} {id : β → String}
    (hid : ∀ {i : String} {b : β}, table[i]? = some b → id b = i) (i : String) :
    table.values.filter (id · == i) = table[i]?.toList := by
  refine eq_of_ascending ((List.pairwise_map.1 (ascending_values hid)).filter _) ?_ fun b => ?_
  · cases table[i]? <;> simp
  · rw [List.mem_filter, mem_values_iff, Option.mem_toList, beq_iff_eq]
    constructor
    · rintro ⟨⟨j, hj⟩, rfl⟩
      rwa [hid hj]
    · intro hb
      exact ⟨⟨i, hb⟩, hid hb⟩

theorem find?_reverse_eq_getLast? {α : Type} (l : List α) (P : α → Bool) :
    l.reverse.find? P = (l.filter P).getLast? := by
  rw [← List.head?_filter, List.filter_reverse, List.head?_reverse]

theorem filter_nodes_ofSnapshot (g : Snapshot) (i : NodeId) :
    (ofSnapshot g).snapshot.nodes.filter (·.id == i) =
      (g.nodes.filter (·.id == i)).getLast?.toList := by
  rw [← find?_reverse_eq_getLast?, ← node?_ofSnapshot]
  exact filter_values_id (coherent_ofSnapshot g).node_id i

theorem filter_edges_ofSnapshot (g : Snapshot) (i : EdgeId) :
    (ofSnapshot g).snapshot.edges.filter (·.id == i) =
      (g.edges.filter (·.id == i)).getLast?.toList := by
  rw [← find?_reverse_eq_getLast?, ← edge?_ofSnapshot]
  exact filter_values_id (coherent_ofSnapshot g).edge_id i

/-- **After any sequence of operations the store built from the copy is the store itself**, indices
included, so that nothing read from it tells the two apart. Of any lists, also with repeated
identifiers, the store that is built from them holds for each identifier the last entry, in
strictly ascending order. -/
theorem run_copy_rebuilds (ops : List Operation) (g : Snapshot) :
    ofSnapshot (run ops).snapshot = run ops ∧
    ((ofSnapshot g).snapshot.nodes.map (·.id)).Pairwise (· < ·) ∧
    (∀ i, (ofSnapshot g).snapshot.nodes.filter (·.id == i) =
      (g.nodes.filter (·.id == i)).getLast?.toList) ∧
    ((ofSnapshot g).snapshot.edges.map (·.id)).Pairwise (· < ·) ∧
    ∀ i, (ofSnapshot g).snapshot.edges.filter (·.id == i) =
      (g.edges.filter (·.id == i)).getLast?.toList := by
  have h := coherent_ofSnapshot g
  exact ⟨ofSnapshot_snapshot (coherent_run ops), ascending_values h.node_id,
    filter_nodes_ofSnapshot g, ascending_values h.edge_id, filter_edges_ofSnapshot g⟩

end Store

/-! ## Sizes -/

/-- How many declarations and relationships a copy holds. -/
def Snapshot.size (g : Snapshot) : Nat := g.nodes.length + g.edges.length

namespace Store

/-- How many declarations and relationships there are. -/
def size (s : Store) : Nat := s.nodeCount + s.edgeCount

theorem size_snapshot (s : Store) : s.snapshot.size = s.size := by
  rw [Snapshot.size, size, ← length_allNodes, ← length_allEdges]
  rfl

theorem size_erase_of_mem {β : Type} {m : ExtTreeMap String β} {k : String} (h : k ∈ m) :
    (m.erase k).size + 1 = m.size := by
  have hpos : 0 < m.size := by
    rw [← ExtTreeMap.length_keys]
    exact List.length_pos_of_mem (ExtTreeMap.mem_keys.2 h)
  rw [ExtTreeMap.size_erase, if_pos (ExtTreeMap.contains_iff_mem.2 h)]
  omega

theorem mem_edges {s : Store} {id : EdgeId} {e : Edge} (h : s.edge? id = some e) :
    id ∈ s.edges := by
  rw [edge?] at h
  exact ExtTreeMap.mem_iff_isSome_getElem?.2 (by rw [h]; rfl)

/-! ## What a removal of edges counts -/

/-- One turn of the loop that takes edges out and counts them. -/
def removeCounting (acc : Store × Nat) (id : EdgeId) : Store × Nat :=
  ((acc.1.removeEdge id).1, acc.2 + (acc.1.removeEdge id).2.toList.length)

theorem removeEdges_eq_foldl (s : Store) (ids : List EdgeId) :
    s.removeEdges ids = ids.foldl removeCounting (s, 0) := by
  refine congrArg (fun turn => ids.foldl turn (s, 0)) ?_
  funext ⟨s, n⟩ id
  rcases h : s.removeEdge id with ⟨t, _ | e⟩ <;> simp [removeCounting, h]

theorem edgeCount_removeCounting (acc : Store × Nat) (id : EdgeId) :
    (removeCounting acc id).1.edgeCount + (removeCounting acc id).2 =
      acc.1.edgeCount + acc.2 := by
  unfold removeCounting removeEdge
  cases he : acc.1.edge? id with
  | none => rfl
  | some e =>
    have hsize := size_erase_of_mem (mem_edges he)
    simp only [edgeCount, Option.toList_some, List.length_singleton]
    omega

theorem edgeCount_foldl {ι : Type} {turn : Store × Nat → ι → Store × Nat}
    (h : ∀ acc i, (turn acc i).1.edgeCount + (turn acc i).2 = acc.1.edgeCount + acc.2)
    (is : List ι) (acc : Store × Nat) :
    (is.foldl turn acc).1.edgeCount + (is.foldl turn acc).2 = acc.1.edgeCount + acc.2 := by
  induction is generalizing acc with
  | nil => rfl
  | cons i is ih => exact (ih _).trans (h acc i)

theorem edgeCount_removeEdges (s : Store) (ids : List EdgeId) :
    (s.removeEdges ids).1.edgeCount + (s.removeEdges ids).2 = s.edgeCount := by
  rw [removeEdges_eq_foldl]
  exact edgeCount_foldl edgeCount_removeCounting ids (s, 0)

theorem removeEdges_eq_self {s : Store} {ids : List EdgeId} (h : (s.removeEdges ids).2 = 0) :
    (s.removeEdges ids).1 = s := by
  have hfold : ∀ acc : Store × Nat, acc.2 ≤ (ids.foldl removeCounting acc).2 ∧
      ((ids.foldl removeCounting acc).2 = acc.2 → (ids.foldl removeCounting acc).1 = acc.1) := by
    clear h
    induction ids with
    | nil => exact fun acc => ⟨Nat.le_refl _, fun _ => rfl⟩
    | cons id ids ih =>
      intro acc
      obtain ⟨hle, heq⟩ := ih (removeCounting acc id)
      rw [List.foldl_cons]
      have hturn : acc.2 ≤ (removeCounting acc id).2 := Nat.le_add_right _ _
      refine ⟨by omega, fun h => (heq (by omega)).trans ?_⟩
      -- The first turn counted nothing, so it found no edge.
      have hnone : (removeCounting acc id).2 = acc.2 := by omega
      unfold removeCounting removeEdge at hnone ⊢
      cases he : acc.1.edge? id with
      | none => rfl
      | some e => simp [he] at hnone
  rw [removeEdges_eq_foldl] at h ⊢
  exact (hfold (s, 0)).2 h

/-! ## What a removal of declarations counts -/

theorem size_foldl_erase {β : Type} {m : ExtTreeMap String β} {ks : List String} (hd : ks.Nodup)
    (hmem : ∀ k ∈ ks, k ∈ m) :
    (ks.foldl (fun m k => m.erase k) m).size + ks.length = m.size := by
  induction ks generalizing m with
  | nil => rfl
  | cons k ks ih =>
    rw [List.nodup_cons] at hd
    have hsize := size_erase_of_mem (hmem k List.mem_cons_self)
    have hrest : ∀ k' ∈ ks, k' ∈ m.erase k := by
      intro k' hk'
      rw [ExtTreeMap.mem_erase, ne_eq, LawfulEqCmp.compare_eq_iff_eq]
      exact ⟨fun he => hd.1 (he ▸ hk'), hmem k' (List.mem_cons_of_mem k hk')⟩
    have hih := ih hd.2 hrest
    rw [List.foldl_cons, List.length_cons]
    omega

theorem nodeCount_removeNodesByFile (s : Store) (path : Path) :
    (s.removeNodesByFile path).1.nodeCount + (s.removeNodesByFile path).2.length = s.nodeCount := by
  refine size_foldl_erase ?_ ?_
  · exact ((ascending_index s.fileNodes path.parts).imp Std.ne_of_lt).filter _
  · intro id hid
    exact ExtTreeMap.contains_iff_mem.1 (List.mem_filter.1 hid).2

theorem removeNodesByFile_eq_self {s : Store} (h : s.Coherent) {path : Path}
    (hn : (s.removeNodesByFile path).2 = []) : (s.removeNodesByFile path).1 = s := by
  refine (h.removeNodesByFile path).ext h (fun i => ?_) (fun i => s.edge?_removeNodesByFile path i)
  rw [node?_removeNodesByFile_eq, hn]
  simp

end Store

end CodeGraph

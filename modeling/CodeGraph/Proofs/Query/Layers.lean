import CodeGraph.Proofs.Query.Neighbours

/-!
# Declarations by distance

* `Store.Layers`: a list of declarations with depths that shows a breadth-first search: the
  declarations at a positive distance from the root, each once and with its distance, the nearest
  first.
* `Store.layers_of_frontier`: a finished search gives such a list.
* `Store.Layers.mem_iff_reaches`: without a bound it lists all that can be reached.
-/

namespace CodeGraph

namespace Store

/-- A list of declarations with depths as a breadth-first search of a relation gives it, up to the
depths that are within a bound. -/
structure Layers (s : Store) (R : NodeId → NodeId → Prop) (root : NodeId) (within : Nat → Prop)
    (found : List (Node × Nat)) : Prop where
  mem_iff : ∀ n k, (n, k) ∈ found ↔
    s.node? n.id = some n ∧ 0 < k ∧ within k ∧ Distance R root n.id k
  once : (found.map (·.1.id)).Nodup
  ordered : found.Pairwise fun p q => p.2 ≤ q.2

variable {s : Store} {R : NodeId → NodeId → Prop} {root : NodeId}

theorem map_id_resolve (hs : s.Coherent) (l : List (NodeId × Nat)) :
    (l.filterMap s.resolve).map (·.1.id) = (l.map (·.1)).filter s.hasNode := by
  rw [← map_id_filterMap_node? hs, List.filterMap_map, List.map_filterMap, List.map_filterMap]
  refine List.filterMap_congr fun p _ => ?_
  rw [resolve, Option.map_map]
  rfl

theorem ordered_resolve {l : List (NodeId × Nat)} (h : l.Pairwise fun p q => p.2 ≤ q.2) :
    (l.filterMap s.resolve).Pairwise fun p q => p.2 ≤ q.2 := by
  have hdepth : ∀ {p : NodeId × Nat} {q : Node × Nat}, s.resolve p = some q → q.2 = p.2 := by
    intro p q hq
    obtain ⟨n, -, rfl⟩ := Option.map_eq_some_iff.1 hq
    rfl
  refine h.filterMap s.resolve fun p q hpq p' hp q' hq => ?_
  rwa [hdepth hp, hdepth hq]

/-- What a finished search met after its root, less the identifiers that name no declaration. -/
theorem layers_of_frontier (hs : s.Coherent) {more within : Nat → Prop}
    {met : List (NodeId × Nat)} (h : Frontier R more root ((root, 0) :: met) [])
    (hwithin : ∀ k, (∀ j < k, more j) ↔ within k) :
    s.Layers R root within (met.filterMap s.resolve) where
  mem_iff n k := by
    rw [mem_filterMap_resolve hs, h.mem_iff_distance_pos, hwithin]
    tauto
  once := by
    have honce : (root :: met.map (·.1)).Nodup := by
      simpa only [List.append_nil, List.map_cons] using h.once
    rw [map_id_resolve hs]
    exact (List.nodup_cons.1 honce).2.filter _
  ordered := by
    have hordered : ((root, 0) :: met).Pairwise fun p q => p.2 ≤ q.2 := by
      simpa only [List.append_nil] using h.ordered
    exact ordered_resolve (List.pairwise_cons.1 hordered).2

namespace Layers

variable {within : Nat → Prop} {found : List (Node × Nat)}

theorem congr {R' : NodeId → NodeId → Prop} {within' : Nat → Prop}
    (h : s.Layers R root within found) (hwithin : ∀ k, within k ↔ within' k)
    (hR : ∀ n, s.hasNode n = true → ∀ k, Distance R root n k ↔ Distance R' root n k) :
    s.Layers R' root within' found where
  mem_iff n k := by
    rw [h.mem_iff, hwithin]
    refine and_congr_right fun hn => ?_
    rw [hR n.id (hasNode_iff.2 ⟨n, hn⟩)]
  once := h.once
  ordered := h.ordered

theorem hasNode_of_mem (h : s.Layers R root within found) {p : Node × Nat} (hp : p ∈ found) :
    s.hasNode p.1.id = true :=
  hasNode_iff.2 ⟨p.1, ((h.mem_iff p.1 p.2).1 hp).1⟩

theorem length_le (hs : s.Coherent) (h : s.Layers R root within found) :
    found.length ≤ s.nodeCount := by
  have hle := length_le_nodeCount hs h.once fun id hid => by
    obtain ⟨p, hp, rfl⟩ := List.mem_map.1 hid
    exact h.hasNode_of_mem hp
  rwa [List.length_map] at hle

theorem ne_root (h : s.Layers R root within found) {p : Node × Nat} (hp : p ∈ found) :
    p.1.id ≠ root := by
  obtain ⟨-, hk, -, hd⟩ := (h.mem_iff p.1 p.2).1 hp
  exact hd.pos_iff.1 hk

theorem reaches_of_mem (h : s.Layers R root within found) {n : Node} (hn : n ∈ found.map (·.1)) :
    s.node? n.id = some n ∧ n.id ≠ root ∧ Relation.ReflTransGen R root n.id := by
  obtain ⟨⟨n, k⟩, hp, rfl⟩ := List.mem_map.1 hn
  obtain ⟨hn, -, -, hd⟩ := (h.mem_iff n k).1 hp
  exact ⟨hn, h.ne_root hp, exists_distance_iff.1 ⟨k, hd⟩⟩

/-- Without a bound, it shows all that can be reached. -/
theorem mem_iff_reaches (h : s.Layers R root (fun _ => True) found) (n : Node) :
    n ∈ found.map (·.1) ↔
      s.node? n.id = some n ∧ n.id ≠ root ∧ Relation.ReflTransGen R root n.id := by
  refine ⟨h.reaches_of_mem, ?_⟩
  rintro ⟨hn, hne, hreach⟩
  obtain ⟨k, hd⟩ := exists_distance_iff.2 hreach
  exact List.mem_map.2 ⟨(n, k), (h.mem_iff n k).2 ⟨hn, hd.pos_iff.2 hne, trivial, hd⟩, rfl⟩

end Layers

end Store

end CodeGraph

import CodeGraph.Proofs.Query.Search
import CodeGraph.Proofs.Store.Scan
import CodeGraph.Query.Walk
import Mathlib.Data.List.Perm.Subperm

/-!
# The graph that a walk explores

* `Store.Leads`: an edge leads from one identifier to another; `Store.Joins`: both are those of
  declarations. The two directions of a walk are converse relations (`Store.joins_sources`).
* `Store.mem_neighbors`: the neighbours of an identifier are those to which an edge leads.
* `pickFresh`, `Store.unmet`: which neighbours a walk takes up, and their declarations.
-/

namespace CodeGraph

open Std

/-! ## Edges in a direction -/

namespace Towards

/-- The end of an edge at which a walk takes it. -/
def start : Towards → Edge → NodeId
  | targets, e => e.source
  | sources, e => e.target

/-- The end of an edge to which a walk goes. -/
def finish : Towards → Edge → NodeId
  | targets, e => e.target
  | sources, e => e.source

end Towards

namespace Store

/-- An edge of one of the kinds leads from one identifier to the other. -/
def Leads (s : Store) (kinds : List EdgeKind) (t : Towards) (a b : NodeId) : Prop :=
  ∃ e ∈ s.allEdges, e.kind ∈ kinds ∧ t.start e = a ∧ t.finish e = b

/-- An edge of one of the kinds leads from one declaration to the other. -/
def Joins (s : Store) (kinds : List EdgeKind) (t : Towards) (a b : NodeId) : Prop :=
  s.hasNode a = true ∧ s.hasNode b = true ∧ s.Leads kinds t a b

instance (s : Store) (kinds : List EdgeKind) (t : Towards) (a b : NodeId) :
    Decidable (s.Leads kinds t a b) :=
  inferInstanceAs (Decidable (∃ e ∈ s.allEdges, e.kind ∈ kinds ∧ t.start e = a ∧ t.finish e = b))

instance (s : Store) (kinds : List EdgeKind) (t : Towards) (a b : NodeId) :
    Decidable (s.Joins kinds t a b) :=
  inferInstanceAs (Decidable (s.hasNode a = true ∧ s.hasNode b = true ∧ s.Leads kinds t a b))

variable {s : Store} {kinds : List EdgeKind} {t : Towards}

theorem joins_sources : s.Joins kinds .sources = flip (s.Joins kinds .targets) := by
  funext a b
  simp only [flip, Joins, Leads, Towards.start, Towards.finish, eq_iff_iff]
  constructor
  · rintro ⟨ha, hb, e, he, hk, htarget, hsource⟩
    exact ⟨hb, ha, e, he, hk, hsource, htarget⟩
  · rintro ⟨hb, ha, e, he, hk, hsource, htarget⟩
    exact ⟨ha, hb, e, he, hk, htarget, hsource⟩

theorem distance_sources {a b : NodeId} {k : Nat} :
    Distance (s.Joins kinds .sources) a b k ↔ Distance (s.Joins kinds .targets) b a k := by
  rw [joins_sources]
  exact ⟨Distance.reverse, Distance.reverse⟩

theorem hasNode_of_stepsTo {a b : NodeId} {k : Nat} (ha : s.hasNode a = true)
    (h : StepsTo (s.Joins kinds t) k a b) : s.hasNode b = true := by
  cases k with
  | zero => exact (show a = b from h) ▸ ha
  | succ k =>
    obtain ⟨c, -, hcb⟩ := h
    exact hcb.2.1

/-! ## Counting -/

theorem length_le_nodeCount (hs : s.Coherent) {ids : List NodeId} (hnd : ids.Nodup)
    (h : ∀ id ∈ ids, s.hasNode id = true) : ids.length ≤ s.nodeCount := by
  have hsub : ids ⊆ s.allNodes.map (·.id) := fun id hid => (mem_map_id_allNodes hs).2 (h id hid)
  have hle := (List.subperm_of_subset hnd hsub).length_le
  rwa [List.length_map, length_allNodes] at hle

theorem length_le_edgeCount (kinds : List EdgeKind) (t : Towards) {ids : List NodeId}
    (hnd : ids.Nodup) (h : ∀ id ∈ ids, ∃ a, s.Leads kinds t a id) : ids.length ≤ s.edgeCount := by
  have hsub : ids ⊆ s.allEdges.map t.finish := by
    intro id hid
    obtain ⟨a, e, he, -, -, rfl⟩ := h id hid
    exact List.mem_map_of_mem he
  have hle := (List.subperm_of_subset hnd hsub).length_le
  rwa [List.length_map, length_allEdges] at hle

theorem length_le_edgeCount_add_one (kinds : List EdgeKind) (t : Towards) {ids : List NodeId}
    (root : NodeId) (hnd : ids.Nodup) (h : ∀ id ∈ ids, id ≠ root → ∃ a, s.Leads kinds t a id) :
    ids.length ≤ s.edgeCount + 1 := by
  have hle : (ids.erase root).length ≤ s.edgeCount := by
    refine length_le_edgeCount kinds t (hnd.erase root) fun id hid => ?_
    obtain ⟨hne, hid⟩ := hnd.mem_erase_iff.1 hid
    exact h id hid hne
  rw [List.length_erase] at hle
  split at hle <;> omega

/-- A search of a relation whose steps lead to ends of edges meets no more than there are edges,
besides its root. -/
theorem length_le_of_frontier_of_ends (kinds : List EdgeKind) (t : Towards)
    {R : NodeId → NodeId → Prop} (hR : ∀ a b, R a b → ∃ c, s.Leads kinds t c b) {more : Nat → Prop}
    {root : NodeId} {done queue : List (NodeId × Nat)} (h : Frontier R more root done queue) :
    (done ++ queue).length ≤ s.edgeCount + 1 := by
  have hle := length_le_edgeCount_add_one kinds t root h.once fun id hid hne => by
    obtain ⟨⟨id, k⟩, hp, rfl⟩ := List.mem_map.1 hid
    cases k with
    | zero => exact absurd (h.eq_root_of_zero_mem hp) hne
    | succ k =>
      obtain ⟨c, -, hc⟩ := (h.sound _ hp).1
      exact hR c id hc
  rwa [List.length_map] at hle

/-- Levels that reach down to zero without a gap are fewer than there are places for them. -/
theorem lt_length_of_level {levels : List Nat} (hdown : ∀ k, k + 1 ∈ levels → k ∈ levels) {k : Nat}
    (hk : k ∈ levels) : k < levels.length := by
  have hall : ∀ d j, j + d = k → j ∈ levels := by
    intro d
    induction d with
    | zero =>
      rintro j rfl
      exact hk
    | succ d ih => exact fun j hj => hdown j (ih (j + 1) (by omega))
  have hsub : List.range (k + 1) ⊆ levels := fun j hj =>
    hall (k - j) j (by have := List.mem_range.1 hj; omega)
  have hle := (List.subperm_of_subset List.nodup_range hsub).length_le
  rw [List.length_range] at hle
  omega

/-! ## Declarations with a depth -/

theorem map_id_filterMap_node? (hs : s.Coherent) (ids : List NodeId) :
    (ids.filterMap s.node?).map (·.id) = ids.filter s.hasNode := by
  induction ids with
  | nil => rfl
  | cons id ids ih =>
    rw [List.filterMap_cons, List.filter_cons, ← ih]
    cases hid : s.node? id with
    | none =>
      have hno : ¬ s.hasNode id = true := by simp [hasNode_iff, hid]
      rw [if_neg hno]
    | some n => rw [if_pos (hasNode_iff.2 ⟨n, hid⟩), List.map_cons, hs.node_id hid]

/-- The declaration of an identifier, with a depth. -/
def resolve (s : Store) (p : NodeId × Nat) : Option (Node × Nat) :=
  (s.node? p.1).map (·, p.2)

theorem resolve_eq_some {p : NodeId × Nat} {n : Node} (h : s.node? p.1 = some n) :
    s.resolve p = some (n, p.2) := by
  rw [resolve, h]
  rfl

theorem mem_filterMap_resolve (hs : s.Coherent) {l : List (NodeId × Nat)} {n : Node} {k : Nat} :
    (n, k) ∈ l.filterMap s.resolve ↔ s.node? n.id = some n ∧ (n.id, k) ∈ l := by
  simp only [List.mem_filterMap, resolve, Option.map_eq_some_iff]
  constructor
  · rintro ⟨⟨id, k⟩, hp, n, hn, heq⟩
    cases heq
    obtain rfl := hs.node_id hn
    exact ⟨hn, hp⟩
  · rintro ⟨hn, hp⟩
    exact ⟨(n.id, k), hp, n, hn, rfl⟩

theorem length_resolve_le_of_frontier (hs : s.Coherent) {R : NodeId → NodeId → Prop}
    {more : Nat → Prop} {root : NodeId} {done queue : List (NodeId × Nat)}
    (h : Frontier R more root done queue) :
    ((done ++ queue).filterMap s.resolve).length ≤ s.nodeCount := by
  have hnd : (((done ++ queue).map (·.1)).filter s.hasNode).Nodup := h.once.filter _
  have hle := length_le_nodeCount hs hnd fun id hid => (List.mem_filter.1 hid).2
  have hsome : (fun p => (s.resolve p).isSome) = s.hasNode ∘ (·.1) := by
    funext p
    rw [resolve, Option.isSome_map, Function.comp, hasNode,
      ExtTreeMap.contains_eq_isSome_getElem?]
    rfl
  rwa [← List.countP_eq_length_filter, List.countP_map, ← hsome,
    ← List.length_filterMap_eq_countP] at hle

theorem length_le_of_frontier (hs : s.Coherent) {more : Nat → Prop} {root : NodeId}
    {done queue : List (NodeId × Nat)} (hroot : s.hasNode root = true)
    (h : Frontier (s.Joins kinds t) more root done queue) :
    (done ++ queue).length ≤ s.nodeCount := by
  have hle := length_le_nodeCount hs h.once fun id hid => by
    obtain ⟨p, hp, rfl⟩ := List.mem_map.1 hid
    exact hasNode_of_stepsTo hroot (h.sound p hp).1
  rwa [List.length_map] at hle

end Store

/-! ## Neighbours -/

theorem mem_map_dedupNeighbours {α κ : Type} [BEq κ] [LawfulBEq κ] (key : α → κ) (l : List α)
    (x : κ) : x ∈ (dedupNeighbours (fun a b => key a == key b) l).map key ↔ x ∈ l.map key := by
  induction l with
  | nil => rfl
  | cons a rest ih =>
    rw [List.map_cons, List.mem_cons, ← ih, dedupNeighbours]
    split
    case h_1 hd => simp [hd]
    case h_2 b tail hd =>
      rw [hd]
      split
      case isTrue hab => simp [eq_of_beq hab]
      case isFalse => simp

theorem Store.mem_neighbors {s : Store} (hs : s.Coherent) {kinds : List EdgeKind} {t : Towards}
    {a b : NodeId} : b ∈ (s.neighbors a kinds t).map (·.1) ↔ s.Leads kinds t a b := by
  unfold neighbors
  rw [mem_map_dedupNeighbours]
  cases t with
  | targets =>
    simp only [sortBy, List.mem_map, List.mem_mergeSort, hs.outgoingEdges_eq]
    grind [Leads, Towards.start, Towards.finish]
  | sources =>
    simp only [sortBy, List.mem_map, List.mem_mergeSort, hs.incomingEdges_eq]
    grind [Leads, Towards.start, Towards.finish]

theorem mem_of_mem_dedupNeighbours {α : Type} {same : α → α → Bool} {l : List α} {a : α}
    (h : a ∈ dedupNeighbours same l) : a ∈ l := by
  induction l with
  | nil => exact h
  | cons b rest ih =>
    rw [dedupNeighbours] at h
    split at h <;> grind

theorem Store.leads_of_mem_neighbors {s : Store} (hs : s.Coherent) {kinds : List EdgeKind}
    {t : Towards} {a : NodeId} {n : NodeId × EdgeKind} (h : n ∈ s.neighbors a kinds t) :
    n.2 ∈ kinds ∧ s.Leads [n.2] t a n.1 := by
  have hn := mem_of_mem_dedupNeighbours h
  cases t with
  | targets =>
    simp only [sortBy, List.mem_mergeSort, hs.outgoingEdges_eq] at hn
    grind [Leads, Towards.start, Towards.finish]
  | sources =>
    simp only [sortBy, List.mem_mergeSort, hs.incomingEdges_eq] at hn
    grind [Leads, Towards.start, Towards.finish]

theorem Store.Leads.of_kind {s : Store} {kinds : List EdgeKind} {kind : EdgeKind} {t : Towards}
    {a b : NodeId} (h : s.Leads [kind] t a b) (hkind : kind ∈ kinds) : s.Leads kinds t a b := by
  obtain ⟨e, he, hk, hends⟩ := h
  exact ⟨e, he, List.mem_singleton.1 hk ▸ hkind, hends⟩

/-! ## The neighbours taken up -/

section PickFresh

variable (visited : ExtTreeSet NodeId) (next : List (NodeId × EdgeKind))

theorem mem_pickFresh_visited (id : NodeId) :
    id ∈ (pickFresh visited next).1 ↔
      id ∈ visited ∨ id ∈ (pickFresh visited next).2.map (·.1) := by
  induction next generalizing visited with
  | nil => simp [pickFresh]
  | cons n rest ih =>
    rw [pickFresh]
    split
    case isTrue hn => exact ih visited
    case isFalse hn =>
      rw [List.map_cons, List.mem_cons, ih]
      grind

theorem mem_pickFresh (id : NodeId) :
    id ∈ (pickFresh visited next).2.map (·.1) ↔ id ∈ next.map (·.1) ∧ id ∉ visited := by
  induction next generalizing visited with
  | nil => simp [pickFresh]
  | cons n rest ih =>
    rw [pickFresh, List.map_cons, List.mem_cons]
    split
    case isTrue hn =>
      rw [ih]
      grind
    case isFalse hn =>
      rw [List.map_cons, List.mem_cons, ih]
      grind

theorem mem_of_mem_pickFresh {n : NodeId × EdgeKind} (h : n ∈ (pickFresh visited next).2) :
    n ∈ next := by
  induction next generalizing visited with
  | nil => exact h
  | cons m rest ih =>
    rw [pickFresh] at h
    split at h <;> grind

theorem nodup_pickFresh : ((pickFresh visited next).2.map (·.1)).Nodup := by
  induction next generalizing visited with
  | nil => simp [pickFresh]
  | cons n rest ih =>
    rw [pickFresh]
    split
    case isTrue hn => exact ih visited
    case isFalse hn =>
      rw [List.map_cons, List.nodup_cons, mem_pickFresh]
      exact ⟨by grind, ih _⟩

end PickFresh

/-- The declarations among the neighbours that a walk has not met before. -/
def Store.unmet (s : Store) (visited : ExtTreeSet NodeId) (next : List (NodeId × EdgeKind)) :
    List Node :=
  (pickFresh visited next).2.filterMap fun n => s.node? n.1

namespace Store

variable {s : Store} (visited : ExtTreeSet NodeId) (next : List (NodeId × EdgeKind))

theorem unmet_cons_of_mem {n : NodeId × EdgeKind} (h : n.1 ∈ visited) :
    s.unmet visited (n :: next) = s.unmet visited next := by
  simp [unmet, pickFresh, h]

theorem unmet_cons_of_notMem {n : NodeId × EdgeKind} (h : n.1 ∉ visited) :
    s.unmet visited (n :: next) = (s.node? n.1).toList ++ s.unmet (visited.insert n.1) next := by
  rw [unmet, pickFresh, if_neg (by simpa using h), List.filterMap_cons]
  cases s.node? n.1 <;> rfl

theorem map_id_unmet (hs : s.Coherent) :
    (s.unmet visited next).map (·.id) =
      ((pickFresh visited next).2.map (·.1)).filter s.hasNode := by
  rw [← map_id_filterMap_node? hs, List.filterMap_map]
  rfl

theorem filterMap_resolve_unmet (hs : s.Coherent) (k : Nat) :
    ((s.unmet visited next).map fun n => (n.id, k)).filterMap s.resolve =
      (s.unmet visited next).map (·, k) := by
  have hnode : ∀ n ∈ s.unmet visited next, s.resolve (n.id, k) = some (n, k) := by
    intro n hn
    obtain ⟨p, -, hp⟩ := List.mem_filterMap.1 hn
    rw [resolve, hs.node_id hp, hp]
    rfl
  rw [List.filterMap_map, ← List.filterMap_eq_map]
  exact List.filterMap_congr hnode

end Store

end CodeGraph

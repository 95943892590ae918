import CodeGraph.Proofs.Query.TreeWalk
import Mathlib.Data.List.Permutation

/-!
# Containment trees are exact

* `Store.IsRoot`, `Store.rootNodes`: where a tree starts.
* `Store.treeWalk`: the walk behind a tree, after its last turn.
* `Store.Pictures`: what a tree shows of a store.
* **`Store.run_tree_pictures`**: after any sequence of operations a tree shows each declaration
  within reach of its roots once, at its distance from them and inside one that encloses it.
-/

namespace CodeGraph

open Std

/-- The outlines within a containment forest in preorder, each with its level. -/
def ContainmentTree.parts (t : ContainmentTree) : List (Outline × Nat) := Outline.partsOf 0 t.roots

/-- The declarations of a containment forest in preorder, each with its level. -/
def ContainmentTree.places (t : ContainmentTree) : List (Node × Nat) :=
  t.parts.map fun p => (p.1.node, p.2)

namespace Store

variable {s : Store} {root : Option NodeId} {kind : Option NodeKind} {maxDepth : Nat}

/-! ## The roots -/

/-- A tree starts at the declaration asked for, or at all whose first container is not in the
store. -/
def IsRoot (s : Store) (root : Option NodeId) (id : NodeId) : Prop :=
  match root with
  | some r => id = r
  | none => s.hasNode id = true ∧ ∀ a, s.container? id = some a → s.hasNode a = false

/-- The roots of a tree, as they are found. -/
def rootNodes (s : Store) : (root : Option NodeId) → List Node
  | some id => (s.node? id).toList
  | none => s.topNodes

theorem mem_rootNodes (hs : s.Coherent) {n : Node} :
    n ∈ s.rootNodes root ↔ s.node? n.id = some n ∧ s.IsRoot root n.id := by
  cases root with
  | some id =>
    rw [rootNodes, Option.mem_toList, IsRoot]
    constructor
    · intro hn
      obtain rfl := hs.node_id hn
      exact ⟨hn, rfl⟩
    · rintro ⟨hn, rfl⟩
      exact hn
  | none =>
    rw [rootNodes, topNodes, List.mem_filter, mem_allNodes hs, IsRoot]
    refine and_congr_right fun hn => ?_
    simp [Option.all_eq_true, hasNode_iff.2 ⟨n, hn⟩]

theorem nodup_rootNodes (hs : s.Coherent) : ((s.rootNodes root).map (·.id)).Nodup := by
  cases root with
  | some id =>
    rw [rootNodes]
    cases s.node? id with
    | none => exact List.nodup_nil
    | some n => exact List.nodup_singleton _
  | none =>
    exact (nodup_map_id_allNodes hs).sublist (List.filter_sublist.map _)

/-- The roots of a tree in order. -/
def treeRoots (s : Store) (root : Option NodeId) : List Node := sortBy fileOrder (s.rootNodes root)

theorem mem_treeRoots (hs : s.Coherent) {n : Node} :
    n ∈ s.treeRoots root ↔ s.node? n.id = some n ∧ s.IsRoot root n.id := by
  rw [treeRoots, mem_sortBy, mem_rootNodes hs]

theorem nodup_treeRoots (hs : s.Coherent) : ((s.treeRoots root).map (·.id)).Nodup :=
  ((perm_sortBy fileOrder _).map Node.id).nodup_iff.2 (nodup_rootNodes hs)

theorem mem_map_id_treeRoots (hs : s.Coherent) (hroot : ∀ id ∈ root, s.hasNode id = true)
    {id : NodeId} : id ∈ (s.treeRoots root).map (·.id) ↔ s.IsRoot root id := by
  rw [List.mem_map]
  constructor
  · rintro ⟨n, hn, rfl⟩
    exact ((mem_treeRoots hs).1 hn).2
  · intro hid
    have hnode : s.hasNode id = true := by
      cases root with
      | some r => exact (show id = r from hid) ▸ hroot r rfl
      | none => exact hid.1
    obtain ⟨n, hn⟩ := hasNode_iff.1 hnode
    obtain rfl := hs.node_id hn
    exact ⟨n, (mem_treeRoots hs).2 ⟨hn, hid⟩, rfl⟩

/-! ## The walk behind a tree -/

/-- The walk behind a tree, before its first turn. -/
def firstTreeWalk (s : Store) (root : Option NodeId) : TreeWalk :=
  { queue := ((s.treeRoots root).map (·.id)).map (·, 0)
    visited := ExtTreeSet.ofList ((s.treeRoots root).map (·.id)) }

/-- The walk behind a tree, after its last turn. -/
def treeWalk (s : Store) (root : Option NodeId) (maxDepth : Nat) (kind : Option NodeKind) :
    TreeWalk :=
  TreeWalk.run s maxDepth kind (s.nodeCount + 1) (s.firstTreeWalk root)

/-- What a tree shows of the walk behind it. -/
def pictured (s : Store) (root : Option NodeId) (maxDepth : Nat) (w : TreeWalk) : ContainmentTree :=
  { roots := (s.treeRoots root).map (Outline.grow w.inside s.nodeCount)
    total := w.visited.size
    maxDepth
    depthReached := w.depthReached }

theorem charts_firstTreeWalk (hs : s.Coherent) (root : Option NodeId) (maxDepth : Nat)
    (kind : Option NodeKind) :
    TreeWalk.Charts s kind maxDepth (s.treeRoots root) [] (s.firstTreeWalk root) where
  stored _ hn := ((mem_treeRoots hs).1 hn).1
  frontier := FrontierFrom.start (nodup_treeRoots hs) fun _ => Iff.rfl
  visited id := by simp [firstTreeWalk]
  order := by simp [firstTreeWalk]
  later a _ := by simp [firstTreeWalk, heldBy]
  held a n hn := by simp [firstTreeWalk, heldBy] at hn
  reached := rfl

theorem charts_treeWalk (hs : s.Coherent) (root : Option NodeId) (maxDepth : Nat)
    (kind : Option NodeKind) :
    ∃ done,
      TreeWalk.Charts s kind maxDepth (s.treeRoots root) done (s.treeWalk root maxDepth kind) ∧
      (s.treeWalk root maxDepth kind).queue = [] :=
  (charts_firstTreeWalk hs root maxDepth kind).run hs (s.nodeCount + 1) (by simp)

theorem tree_eq (hs : s.Coherent) (hroot : ∀ id ∈ root, s.hasNode id = true) (maxDepth : Nat)
    (kind : Option NodeKind) :
    s.tree root maxDepth kind =
      some (s.pictured root maxDepth (s.treeWalk root maxDepth kind)) := by
  obtain ⟨done, h, hq⟩ := charts_treeWalk hs root maxDepth kind
  rw [pictured, ← h.assemble_eq_grow hs hq]
  cases root with
  | none => rfl
  | some id =>
    obtain ⟨n, hn⟩ := hasNode_iff.1 (hroot id rfl)
    have hroots : s.treeRoots (some id) = sortBy fileOrder [n] := by
      rw [treeRoots, rootNodes, hn, Option.toList_some]
    rw [treeWalk, firstTreeWalk, hroots, tree, hn]
    rfl

/-! ## What a tree shows -/

/-- A containment forest as an exact picture of a store: it shows each declaration within reach of
the roots once, at its distance from them and inside one that encloses it. -/
structure Pictures (s : Store) (root : Option NodeId) (maxDepth : Nat) (kind : Option NodeKind)
    (t : ContainmentTree) : Prop where
  once : (t.places.map (·.1.id)).Nodup
  roots : ∀ n, n ∈ t.roots.map Outline.node ↔ s.node? n.id = some n ∧ s.IsRoot root n.id
  /-- The level of a declaration is the length of the shortest walks to it from the roots. -/
  placed : ∀ n l, (n, l) ∈ t.places ↔ s.node? n.id = some n ∧
    DistanceFrom (s.Encloses kind) (s.IsRoot root) n.id l ∧ l ≤ maxDepth
  child : ∀ p ∈ t.parts, ∀ c ∈ p.1.children, s.Encloses kind p.1.node.id c.node.id
  siblings : ∀ p ∈ t.parts,
    (p.1.children.map Outline.node).Pairwise fun a b => sourceKey a < sourceKey b
  files : (t.roots.map Outline.node).Pairwise fun a b => (fileOrder a b).isLE
  /-- The total is the sum of the sizes of the roots' outlines. -/
  total : t.total = Outline.sizes t.roots
  deepest : t.depthReached = (t.places.map (·.2)).max?.getD 0

section Finished

variable {done : List (NodeId × Nat)} {w : TreeWalk}
  (h : TreeWalk.Charts s kind maxDepth (s.treeRoots root) done w) (hq : w.queue = [])

theorem parts_pictured (w : TreeWalk) : (s.pictured root maxDepth w).parts =
    Outline.partsOf 0 ((s.treeRoots root).map (Outline.grow w.inside s.nodeCount)) := rfl

include h hq in
/-- A finished walk grows an outline of each declaration that it has met, as deep as the rest of the
store can be. -/
theorem mem_parts_pictured (hs : s.Coherent) {o : Outline} {l : Nat} :
    (o, l) ∈ (s.pictured root maxDepth w).parts ↔ ∃ n, (n.id, l) ∈ done ∧ s.node? n.id = some n ∧
      o = Outline.grow w.inside (s.nodeCount - l) n := by
  rw [parts_pictured, Outline.mem_partsOf_grow]
  constructor
  · rintro ⟨r, hr, j, n, rfl, -, hrn, rfl⟩
    obtain ⟨hdone, hn⟩ := (h.mem_done_iff hs hq).2 ⟨r, hr, hrn⟩
    exact ⟨n, by rwa [Nat.zero_add], hn, by rw [Nat.zero_add]⟩
  · rintro ⟨n, hdone, hn, rfl⟩
    obtain ⟨r, hr, hrn⟩ := (h.mem_done_iff hs hq).1 ⟨hdone, hn⟩
    exact ⟨r, hr, l, n, by rw [Nat.zero_add], (h.level_lt hs hq hdone).le, hrn, rfl⟩

include h hq in
theorem mem_places_pictured (hs : s.Coherent) {n : Node} {l : Nat} :
    (n, l) ∈ (s.pictured root maxDepth w).places ↔ s.node? n.id = some n ∧ (n.id, l) ∈ done := by
  rw [ContainmentTree.places, List.mem_map]
  constructor
  · rintro ⟨⟨o, k⟩, hp, heq⟩
    obtain ⟨m, hdone, hm, rfl⟩ := (mem_parts_pictured h hq hs).1 hp
    rw [Outline.node_grow] at heq
    cases heq
    exact ⟨hm, hdone⟩
  · rintro ⟨hn, hdone⟩
    refine ⟨_, (mem_parts_pictured h hq hs).2 ⟨n, hdone, hn, rfl⟩, ?_⟩
    rw [Outline.node_grow]

include h in
theorem nodup_places_pictured :
    ((s.pictured root maxDepth w).places.map (·.1.id)).Nodup := by
  rw [ContainmentTree.places, List.map_map, parts_pictured]
  exact h.parted.nodup_partsOf_grow s.nodeCount 0 h.apart_roots

include h hq in
theorem perm_places_pictured (hs : s.Coherent) :
    ((s.pictured root maxDepth w).places.map fun p => (p.1.id, p.2)).Perm done := by
  have hnd := h.frontier.once
  rw [hq, List.append_nil] at hnd
  have honce : ((s.pictured root maxDepth w).places.map (·.1.id)).Nodup :=
    nodup_places_pictured h
  refine (List.perm_ext_iff_of_nodup (List.Nodup.of_map Prod.fst ?_) hnd.of_map).2 ?_
  · rwa [List.map_map]
  rintro ⟨id, l⟩
  rw [List.mem_map]
  constructor
  · rintro ⟨⟨n, k⟩, hp, heq⟩
    exact heq ▸ ((mem_places_pictured h hq hs).1 hp).2
  · intro hdone
    obtain ⟨n, hn⟩ := hasNode_iff.1 (h.hasNode_of_mem (List.mem_append_left _ hdone))
    obtain rfl := hs.node_id hn
    exact ⟨(n, l), (mem_places_pictured h hq hs).2 ⟨hn, hdone⟩, rfl⟩

include h hq in
theorem children_of_mem_parts (hs : s.Coherent) {p : Outline × Nat}
    (hp : p ∈ (s.pictured root maxDepth w).parts) :
    p.1.children.map Outline.node = sortBy sourceOrder (heldBy w.inside p.1.node.id) := by
  obtain ⟨o, l⟩ := p
  obtain ⟨n, hdone, -, rfl⟩ := (mem_parts_pictured h hq hs).1 hp
  -- levels stay below the number of declarations, so the outline was not cut off here
  have hlt := h.level_lt hs hq hdone
  dsimp only
  rw [Outline.map_node_children_grow (Nat.sub_pos_of_lt hlt), Outline.node_grow]

include h hq in
theorem pictures_pictured (hs : s.Coherent) (hroot : ∀ id ∈ root, s.hasNode id = true) :
    s.Pictures root maxDepth kind (s.pictured root maxDepth w) := by
  have hperm := perm_places_pictured h hq hs
  have hnodes : (s.pictured root maxDepth w).roots.map Outline.node = s.treeRoots root := by
    rw [pictured, Outline.map_node_grow]
  have hfront := h.frontier
  rw [hq, show (· ∈ (s.treeRoots root).map Node.id) = s.IsRoot root from
    funext fun id => propext (mem_map_id_treeRoots hs hroot)] at hfront
  constructor
  case once => exact nodup_places_pictured h
  case roots =>
    intro n
    rw [hnodes, mem_treeRoots hs]
  case placed =>
    intro n l
    rw [mem_places_pictured h hq hs, hfront.mem_iff]
  case child =>
    intro p hp c hc
    have hmem := List.mem_map_of_mem (f := Outline.node) hc
    rw [children_of_mem_parts h hq hs hp, mem_sortBy] at hmem
    exact (h.held _ _ hmem).2
  case siblings =>
    intro p hp
    rw [children_of_mem_parts h hq hs hp]
    exact pairwise_sortBy_sourceOrder (h.parted.once _)
  case files =>
    rw [hnodes]
    exact pairwise_sortBy fileOrder _
  case total =>
    have hsize := h.size_visited
    rw [hq, List.append_nil, ← hperm.length_eq, List.length_map, ContainmentTree.places,
      List.length_map] at hsize
    rw [← Outline.length_partsOf 0]
    exact hsize
  case deepest =>
    have hlevels := hperm.map Prod.snd
    rw [List.map_map] at hlevels
    refine (h.reached.trans (hlevels.foldl_eq 0).symm).trans ?_
    rw [List.foldl_max, Nat.zero_max]
    rfl

end Finished

/-- **After any sequence of operations a containment tree is an exact picture**, also where several
containment edges lead into a declaration or containment runs in a circle. None stands in it twice:
it shows the roots and, of the kind asked for, what is within the greatest depth below them. -/
theorem run_tree_pictures (ops : List Operation) {root : Option NodeId}
    (hroot : ∀ id ∈ root, (run ops).hasNode id = true) (maxDepth : Nat) (kind : Option NodeKind) :
    ∃ t, (run ops).tree root maxDepth kind = some t ∧ (run ops).Pictures root maxDepth kind t := by
  have hs := coherent_run ops
  obtain ⟨done, h, hq⟩ := charts_treeWalk hs root maxDepth kind
  exact ⟨_, tree_eq hs hroot maxDepth kind, pictures_pictured h hq hs hroot⟩

/-- Two classes that contain each other, and a method that both contain. -/
def shared : List Operation :=
  [.addNodes [boxNode .classType "a", boxNode .classType "b", boxNode .method "m"],
   .addEdges ([("a", "b"), ("a", "m"), ("b", "a"), ("b", "m")].map fun e =>
     { id := e.1 ++ e.2, source := e.1, target := e.2, kind := .contains })]

/-- The method stands once, next to the second class and inside the first. -/
def sharedTree : ContainmentTree :=
  { roots := [.mk (boxNode .classType "a")
      [.mk (boxNode .classType "b") [], .mk (boxNode .method "m") []]]
    total := 3
    maxDepth := 5
    depthReached := 1 }

theorem run_tree_pictures_shared :
    (∀ id ∈ some "a", (run shared).hasNode id = true) ∧
    (run shared).tree (some "a") 5 none = some sharedTree ∧
    (run shared).Pictures (some "a") 5 none sharedTree := by
  have hroot : ∀ id ∈ some "a", (run shared).hasNode id = true := by decide +kernel
  have htree : (run shared).tree (some "a") 5 none = some sharedTree := by
    rw [tree_eq (coherent_run shared) hroot]
    cbv
  obtain ⟨t, ht, hpictures⟩ := run_tree_pictures shared hroot 5 none
  rw [htree] at ht
  cases ht
  exact ⟨hroot, htree, hpictures⟩

end Store

end CodeGraph

import CodeGraph.Proofs.Query.Ascent
import CodeGraph.Proofs.Query.Tree

/-!
# The full tree

A tree from the top starts at the declarations whose first container is not in the store and goes
down along all containment edges. From each declaration the first containers lead up to such a root,
unless they run in a circle, so the way down from the root misses nothing.

* `Store.exists_root_encloses`: each declaration is below a root.
* **`Store.run_tree_complete`**: after any sequence of operations that leaves no declaration above
  itself, a tree from the top that is deep enough shows all declarations, each once.
-/

namespace CodeGraph

open Std

theorem ContainmentTree.length_places (t : ContainmentTree) :
    t.places.length = Outline.sizes t.roots := by
  rw [places, List.length_map, parts, Outline.length_partsOf]

namespace Store

variable {s : Store}

theorem Within.encloses (hs : s.Coherent) {a b : NodeId} (hab : s.Within a b)
    (ha : s.hasNode a = true) (hb : s.hasNode b = true) : s.Encloses none b a := by
  obtain ⟨n, hn⟩ := hasNode_iff.1 ha
  exact ⟨⟨hb, ha, hab.holds hs⟩, n, hn, fun k hk => nomatch hk⟩

/-- The first containers of a declaration lead up to a root, so the root leads down to it. -/
theorem exists_root_encloses (hs : s.Coherent) (hacyclic : s.Acyclic) {id : NodeId}
    (hid : s.hasNode id = true) :
    ∃ r, s.IsRoot none r ∧ Relation.ReflTransGen (s.Encloses none) r id := by
  have hloop : ∀ a ∈ {id | s.hasNode id = true},
      ¬ Relation.TransGen (fun a b => s.Within a b ∧ s.Encloses none b a) a a := fun a hnode ha =>
    hacyclic a hnode (Relation.TransGen.mono (fun _ _ => And.left) _ _ ha)
  obtain ⟨r, hr, hup, hend⟩ :=
    exists_last (finite_hasNode hs) (fun a _ b hab => hab.2.1.1) hloop hid
  refine ⟨r, ⟨hr, fun a hra => ?_⟩, Relation.reflTransGen_swap.1
    (Relation.ReflTransGen.mono (fun _ _ => And.right) _ _ hup)⟩
  rw [Bool.eq_false_iff]
  exact fun ha => hend a ⟨hra, Within.encloses hs hra hr ha⟩

section Finished

variable {maxDepth : Nat} {done : List (NodeId × Nat)} {w : TreeWalk}

theorem mem_done_of_acyclic (hs : s.Coherent) (hacyclic : s.Acyclic)
    (hdepth : s.nodeCount ≤ maxDepth)
    (h : TreeWalk.Charts s none maxDepth (s.treeRoots none) done w) (hq : w.queue = [])
    {id : NodeId} (hid : s.hasNode id = true) : id ∈ done.map (·.1) := by
  obtain ⟨r, hr, hrid⟩ := exists_root_encloses hs hacyclic hid
  have hfront := h.frontier
  rw [hq] at hfront
  refine hfront.mem_of_reaches (fun p hp => (h.level_lt hs hq hp).trans_le hdepth) ?_ hrid
  exact (mem_map_id_treeRoots hs (by simp)).2 hr

theorem perm_allNodes_of_acyclic (hs : s.Coherent) (hacyclic : s.Acyclic)
    (hdepth : s.nodeCount ≤ maxDepth)
    (h : TreeWalk.Charts s none maxDepth (s.treeRoots none) done w) (hq : w.queue = []) :
    ((s.pictured none maxDepth w).places.map (·.1)).Perm s.allNodes := by
  have honce : ((s.pictured none maxDepth w).places.map (·.1)).Nodup := by
    refine List.Nodup.of_map Node.id ?_
    rw [List.map_map]
    exact nodup_places_pictured h
  refine (List.perm_ext_iff_of_nodup honce (nodup_map_id_allNodes hs).of_map).2 fun n => ?_
  rw [mem_allNodes hs, List.mem_map]
  constructor
  · rintro ⟨p, hp, rfl⟩
    exact ((mem_places_pictured h hq hs).1 hp).1
  · intro hn
    obtain ⟨⟨id, l⟩, hdone, rfl⟩ :=
      List.mem_map.1 (mem_done_of_acyclic hs hacyclic hdepth h hq (hasNode_iff.2 ⟨n, hn⟩))
    exact ⟨(n, l), (mem_places_pictured h hq hs).2 ⟨hn, hdone⟩, rfl⟩

end Finished

/-- **After any sequence of operations that leaves no declaration above itself, a full tree shows
every declaration**, once, also where several containment edges lead into one, or where one comes
from a declaration that is not in the store or goes to one. -/
theorem run_tree_complete (ops : List Operation) (hacyclic : (run ops).Acyclic) {maxDepth : Nat}
    (hdepth : (run ops).nodeCount ≤ maxDepth) :
    ∃ t, (run ops).tree none maxDepth none = some t ∧
      (t.places.map (·.1)).Perm (run ops).allNodes ∧ t.total = (run ops).nodeCount := by
  have hs := coherent_run ops
  have hroot : ∀ id ∈ (none : Option NodeId), (run ops).hasNode id = true := by simp
  obtain ⟨done, h, hq⟩ := charts_treeWalk hs none maxDepth none
  have hpictures := pictures_pictured h hq hs hroot
  have hperm := perm_allNodes_of_acyclic hs hacyclic hdepth h hq
  refine ⟨_, tree_eq hs hroot maxDepth none, hperm, ?_⟩
  rw [hpictures.total, ← length_allNodes, ← hperm.length_eq, List.length_map,
    ContainmentTree.length_places]

/-- A method in two classes, one of them in something that is not in the store; the other contains
something that is not in the store. -/
def loose : List Operation :=
  [.addNodes [boxNode .classType "a", boxNode .classType "b", boxNode .method "m"],
   .addEdges ([("x", "a"), ("a", "m"), ("b", "m"), ("b", "y")].map fun e =>
     { id := e.1 ++ e.2, source := e.1, target := e.2, kind := .contains })]

/-- The levels of what the edges of `loose` join. -/
def looseRank (id : NodeId) : Nat :=
  if id = "x" then 0 else if id ∈ ["a", "b"] then 1 else 2

theorem run_tree_complete_loose :
    (run loose).Acyclic ∧ (run loose).nodeCount ≤ 3 ∧
    ∃ t, (run loose).tree none 3 none = some t ∧
      (t.places.map (·.1)).Perm (run loose).allNodes ∧ t.total = (run loose).nodeCount := by
  have hacyclic := acyclic_of_rank (coherent_run loose) looseRank (by decide +kernel)
  have hdepth : (run loose).nodeCount ≤ 3 := by decide +kernel
  exact ⟨hacyclic, hdepth, run_tree_complete loose hacyclic hdepth⟩

end Store

end CodeGraph

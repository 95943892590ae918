import CodeGraph.Proofs.Query.Layers
import Mathlib.Order.Nat

/-!
# Call walks are breadth-first searches

* `CallWalk.foldl_meet`: below the limit a walk takes up all the declarations it meets, in order.
* `CallWalk.Searches`: a walk under way as a search of the call graph, kept by one turn
  (`Searches.expand`, `Searches.stop`) and so by a run (`Searches.run`).
* `Store.callWalk`: a walk after its last turn, which `Store.callGraph` shows; with room for all
  declarations it is the finished search (`Store.searches_callWalk`, `Store.layers_callWalk`).
* **`Store.mem_callGraph`**: with room for all declarations a walk lists those at a distance from
  one to the greatest depth, each with its distance.
-/

namespace CodeGraph

open Std

namespace CallWalk

variable {s : Store}

theorem meet_visited {limit depth : Nat} {w : CallWalk} {id : NodeId} (h : id ∈ w.visited) :
    meet s limit depth w id = w := by
  simp [meet, h]

theorem meet_missing {limit depth : Nat} {w : CallWalk} {id : NodeId} (ht : w.truncated = false)
    (h : id ∉ w.visited) (hn : s.node? id = none) :
    meet s limit depth w id = { w with visited := w.visited.insert id } := by
  simp [meet, ht, h, hn]

theorem meet_found {limit depth : Nat} {w : CallWalk} {id : NodeId} {node : Node}
    (ht : w.truncated = false) (h : id ∉ w.visited) (hn : s.node? id = some node)
    (hlimit : w.entries.length < limit) :
    meet s limit depth w id =
      { w with
        visited := w.visited.insert id
        entries := w.entries ++ [⟨node, depth⟩]
        queue := w.queue ++ [(id, depth)] } := by
  simp [meet, ht, h, hn, Nat.not_le.2 hlimit]

/-- Below the limit a walk takes up all the declarations it meets, in order. -/
theorem foldl_meet (hs : s.Coherent) (limit depth : Nat) (next : List (NodeId × EdgeKind))
    (w : CallWalk) (ht : w.truncated = false)
    (hlimit : w.entries.length + (s.unmet w.visited next).length ≤ limit) :
    (next.map (·.1)).foldl (meet s limit depth) w =
      { w with
        visited := (pickFresh w.visited next).1
        entries := w.entries ++ (s.unmet w.visited next).map (⟨·, depth⟩)
        queue := w.queue ++ (s.unmet w.visited next).map fun n => (n.id, depth) } := by
  induction next generalizing w with
  | nil => simp [Store.unmet, pickFresh]
  | cons n next ih =>
    rw [List.map_cons, List.foldl_cons]
    by_cases hn : n.1 ∈ w.visited
    · rw [Store.unmet_cons_of_mem _ _ hn] at hlimit ⊢
      rw [meet_visited hn, ih w ht hlimit]
      simp [pickFresh, hn]
    · rw [Store.unmet_cons_of_notMem _ _ hn] at hlimit ⊢
      cases hnode : s.node? n.1 with
      | none =>
        rw [meet_missing ht hn hnode, ih]
        · simp [pickFresh, hn]
        · exact ht
        · simpa [hnode] using hlimit
      | some node =>
        simp only [hnode, Option.toList_some, List.singleton_append, List.length_cons] at hlimit
        rw [meet_found ht hn hnode (by omega), ih]
        · simp [pickFresh, hn, hs.node_id hnode]
        · exact ht
        · show (w.entries ++ [CallEntry.mk node depth]).length +
            (s.unmet (w.visited.insert n.1) next).length ≤ limit
          rw [List.length_append, List.length_singleton]
          omega

/-! ## One turn of a walk -/

/-- A walk under way is a search of the call graph: of the declarations done with and those queued,
all but the first are the entries. -/
structure Searches (s : Store) (t : Towards) (maxDepth : Nat) (root : NodeId)
    (done : List (NodeId × Nat)) (w : CallWalk) : Prop where
  frontier : Frontier (s.Joins [.calls] t) (· < maxDepth) root done w.queue
  visited : ∀ id, s.hasNode id = true →
    (id ∈ w.visited ↔ id ∈ (done ++ w.queue).map (·.1))
  entries : ∃ met, done ++ w.queue = (root, 0) :: met ∧
    w.entries.map (fun e => (e.node, e.depth)) = met.filterMap s.resolve
  truncated : w.truncated = false
  /-- As long as nothing new was seen beyond the greatest depth, the declarations there lead only to
  others that were met. -/
  settled : w.depthLimited = false → ∀ p ∈ done, ¬ p.2 < maxDepth →
    ∀ b, s.Joins [.calls] t p.1 b → b ∈ (done ++ w.queue).map (·.1)

namespace Searches

variable {t : Towards} {maxDepth limit : Nat} {root : NodeId} {done : List (NodeId × Nat)}
  {w : CallWalk} {a : NodeId} {l : Nat} {queue : List (NodeId × Nat)}

theorem stop (hs : s.Coherent) (h : Searches s t maxDepth root done w)
    (hq : w.queue = (a, l) :: queue) (hl : ¬ l < maxDepth) :
    Searches s t maxDepth root (done ++ [(a, l)])
      { w with
        queue := queue
        depthLimited := w.depthLimited ||
          ((s.neighbors a [.calls] t).map (·.1)).any fun id => !w.visited.contains id } := by
  have happ : done ++ [(a, l)] ++ queue = done ++ w.queue := by simp [hq]
  constructor
  case frontier => exact (hq ▸ h.frontier).stop fun hmore => absurd hmore hl
  case visited =>
    rw [happ]
    exact h.visited
  case entries =>
    rw [happ]
    exact h.entries
  case truncated => exact h.truncated
  case settled =>
    intro hno p hp hlast b hb
    obtain ⟨hno, hnone⟩ := Bool.or_eq_false_iff.1 hno
    rw [happ]
    rcases List.mem_append.1 hp with hp | hp
    · exact h.settled hno p hp hlast b hb
    · obtain rfl := List.mem_singleton.1 hp
      have hmem : b ∈ w.visited := by
        simpa using List.any_eq_false.1 hnone b ((Store.mem_neighbors hs).2 hb.2.2)
      exact (h.visited b hb.2.1).1 hmem

theorem mem_unmet_iff (hs : s.Coherent) (h : Searches s t maxDepth root done w)
    (ha : s.hasNode a = true) (b : NodeId) :
    b ∈ (s.unmet w.visited (s.neighbors a [.calls] t)).map (·.id) ↔
      s.Joins [.calls] t a b ∧ b ∉ (done ++ w.queue).map (·.1) := by
  rw [Store.map_id_unmet _ _ hs, List.mem_filter, mem_pickFresh, Store.mem_neighbors hs,
    Store.Joins]
  constructor
  · rintro ⟨⟨hab, hnot⟩, hb⟩
    exact ⟨⟨ha, hb, hab⟩, fun hmem => hnot ((h.visited b hb).2 hmem)⟩
  · rintro ⟨⟨-, hb, hab⟩, hnot⟩
    exact ⟨⟨hab, fun hmem => hnot ((h.visited b hb).1 hmem)⟩, hb⟩

theorem frontier_unmet (hs : s.Coherent) (hroot : s.hasNode root = true)
    (h : Searches s t maxDepth root done w) (hq : w.queue = (a, l) :: queue) (hl : l < maxDepth) :
    Frontier (s.Joins [.calls] t) (· < maxDepth) root (done ++ [(a, l)])
      (queue ++ (s.unmet w.visited (s.neighbors a [.calls] t)).map fun n => (n.id, l + 1)) := by
  have ha : s.hasNode a = true :=
    Store.hasNode_of_stepsTo hroot (h.frontier.sound (a, l) (by simp [hq])).1
  have hnd : ((s.unmet w.visited (s.neighbors a [.calls] t)).map (·.id)).Nodup := by
    rw [Store.map_id_unmet _ _ hs]
    exact (nodup_pickFresh _ _).filter _
  have hfront := (hq ▸ h.frontier).expand hl hnd (hq ▸ h.mem_unmet_iff hs ha)
  rwa [List.map_map] at hfront

/-- The declarations that a walk meets are distinct, so there are no more of them than the store
holds. -/
theorem length_entries_add_unmet (hs : s.Coherent) (hroot : s.hasNode root = true)
    (h : Searches s t maxDepth root done w) (hq : w.queue = (a, l) :: queue) (hl : l < maxDepth) :
    w.entries.length + (s.unmet w.visited (s.neighbors a [.calls] t)).length ≤ s.nodeCount := by
  obtain ⟨met, hmet, hentries⟩ := h.entries
  have hlen := Store.length_le_of_frontier hs hroot (h.frontier_unmet hs hroot hq hl)
  have hmet' := congrArg List.length hmet
  have hentries' : w.entries.length ≤ met.length := by
    have hle := List.length_filterMap_le s.resolve met
    rwa [← hentries, List.length_map] at hle
  simp only [hq, List.length_append, List.length_cons, List.length_map, List.length_nil]
    at hlen hmet'
  omega

theorem expand (hs : s.Coherent) (hroot : s.hasNode root = true) (hlimit : s.nodeCount ≤ limit)
    (h : Searches s t maxDepth root done w) (hq : w.queue = (a, l) :: queue) (hl : l < maxDepth) :
    Searches s t maxDepth root (done ++ [(a, l)])
      (((s.neighbors a [.calls] t).map (·.1)).foldl (meet s limit (l + 1))
        { w with queue := queue }) := by
  have hfront := h.frontier_unmet hs hroot hq hl
  have hroom := Nat.le_trans (h.length_entries_add_unmet hs hroot hq hl) hlimit
  rw [foldl_meet hs limit (l + 1) _ { w with queue := queue } h.truncated hroom]
  have happ : ∀ new, done ++ [(a, l)] ++ (queue ++ new) = done ++ w.queue ++ new := by simp [hq]
  constructor
  case frontier => exact hfront
  case visited =>
    intro id hid
    rw [happ, List.map_append, List.map_map, List.mem_append, mem_pickFresh_visited,
      h.visited id hid]
    show _ ↔ _ ∨ id ∈ (s.unmet w.visited (s.neighbors a [.calls] t)).map (·.id)
    rw [Store.map_id_unmet _ _ hs, List.mem_filter, and_iff_left hid]
  case entries =>
    obtain ⟨met, hmet, hentries⟩ := h.entries
    refine ⟨met ++ (s.unmet w.visited (s.neighbors a [.calls] t)).map fun n => (n.id, l + 1), ?_,
      ?_⟩
    · rw [happ, hmet, List.cons_append]
    · rw [List.map_append, hentries, List.filterMap_append, Store.filterMap_resolve_unmet _ _ hs,
        List.map_map]
      rfl
  case truncated => exact h.truncated
  case settled =>
    intro hno p hp hlast b hb
    rw [happ, List.map_append]
    rcases List.mem_append.1 hp with hp | hp
    · exact List.mem_append_left _ (h.settled hno p hp hlast b hb)
    · obtain rfl := List.mem_singleton.1 hp
      exact absurd hl hlast

/-- A run ends with an empty queue: no declaration is queued twice. -/
theorem run (hs : s.Coherent) (hroot : s.hasNode root = true) (hlimit : s.nodeCount ≤ limit)
    (fuel : Nat) (h : Searches s t maxDepth root done w)
    (hfuel : s.nodeCount < fuel + done.length) :
    ∃ done', Searches s t maxDepth root done' (run s t maxDepth limit fuel w) ∧
      (run s t maxDepth limit fuel w).queue = [] := by
  -- every turn adds a declaration to those done with, and they are all distinct
  induction fuel generalizing done w with
  | zero =>
    have hlen := Store.length_le_of_frontier hs hroot h.frontier
    rw [List.length_append] at hlen
    omega
  | succ fuel ih =>
    rw [CallWalk.run, if_neg (by simp [h.truncated])]
    cases hq : w.queue with
    | nil => exact ⟨done, h, hq⟩
    | cons p queue =>
      obtain ⟨a, l⟩ := p
      have hfuel' : s.nodeCount < fuel + (done ++ [(a, l)]).length := by
        rw [List.length_append, List.length_singleton]
        omega
      have hle : l ≤ maxDepth := forall_lt_iff_le.1 (h.frontier.sound (a, l) (by simp [hq])).2
      dsimp only
      split
      case isTrue hl =>
        obtain rfl : l = maxDepth := by simpa using hl
        exact ih (h.stop hs hq (Nat.lt_irrefl l)) hfuel'
      case isFalse hl =>
        have hne : l ≠ maxDepth := by simpa using hl
        exact ih (h.expand hs hroot hlimit hq (by omega)) hfuel'

end Searches

/-! ## A whole walk -/

/-- The walk from a declaration, before its first turn. -/
def first (root : NodeId) : CallWalk :=
  { queue := [(root, 0)], visited := ExtTreeSet.ofList [root] }

theorem searches_first (s : Store) (t : Towards) (maxDepth : Nat) (root : NodeId) :
    Searches s t maxDepth root [] (first root) :=
  ⟨.start _ _ _, fun id _ => by simpa [first] using eq_comm, ⟨[], rfl, rfl⟩, rfl, by simp⟩

end CallWalk

/-- A call walk after its last turn. -/
def Store.callWalk (s : Store) (t : Towards) (root : NodeId) (depth limit : Nat) : CallWalk :=
  CallWalk.run s t (min (max depth 1) maxCallDepth) limit (s.nodeCount + 2) (CallWalk.first root)

/-- What a walk shows of itself. -/
def CallWalk.graph (r : Node) (maxDepth : Nat) (w : CallWalk) : CallGraph :=
  { root := r, entries := w.entries, maxDepth, depthLimited := w.depthLimited,
    truncated := w.truncated }

/-- An entry as a declaration with its depth. -/
def CallEntry.place (e : CallEntry) : Node × Nat := (e.node, e.depth)

theorem CallEntry.mem_map_place {es : List CallEntry} {n : Node} {k : Nat} :
    (n, k) ∈ es.map place ↔ ⟨n, k⟩ ∈ es := by
  refine ⟨fun h => ?_, List.mem_map_of_mem⟩
  obtain ⟨e, he, heq⟩ := List.mem_map.1 h
  cases heq
  exact he

namespace Store

variable {s : Store} {t : Towards} {root : NodeId} {limit : Nat}

theorem callGraph_eq {r : Node} (hr : s.node? root = some r) (depth limit : Nat) :
    s.callGraph t root depth limit =
      some ((s.callWalk t root depth limit).graph r (min (max depth 1) maxCallDepth)) := by
  rw [callGraph, hr]
  rfl

/-- With room for all declarations a walk ends with the search of the call graph. -/
theorem searches_callWalk (hs : s.Coherent) (hroot : s.hasNode root = true) (depth : Nat)
    (hlimit : s.nodeCount ≤ limit) :
    ∃ met, CallWalk.Searches s t (min (max depth 1) maxCallDepth) root ((root, 0) :: met)
        (s.callWalk t root depth limit) ∧
      (s.callWalk t root depth limit).queue = [] ∧
      (s.callWalk t root depth limit).entries.map CallEntry.place = met.filterMap s.resolve := by
  obtain ⟨done, hrun, hq⟩ := (CallWalk.searches_first s t (min (max depth 1) maxCallDepth)
    root).run hs hroot hlimit (s.nodeCount + 2) (by simp)
  obtain ⟨met, hmet, hentries⟩ := hrun.entries
  rw [hq, List.append_nil] at hmet
  subst hmet
  exact ⟨met, hrun, hq, hentries⟩

theorem layers_callWalk (hs : s.Coherent) (hroot : s.hasNode root = true) (depth : Nat)
    (hlimit : s.nodeCount ≤ limit) :
    s.Layers (s.Joins [.calls] t) root (· ≤ min (max depth 1) maxCallDepth)
      ((s.callWalk t root depth limit).entries.map CallEntry.place) := by
  obtain ⟨met, hsearch, hq, hentries⟩ := searches_callWalk hs hroot depth hlimit
  rw [hentries]
  exact layers_of_frontier hs (hq ▸ hsearch.frontier) fun k => forall_lt_iff_le

/-- **With room for all declarations, a call walk lists those at a distance from one to the greatest
depth**, each with its distance. -/
theorem mem_callGraph (hs : s.Coherent) (hroot : s.hasNode root = true) (depth : Nat)
    (hlimit : s.nodeCount ≤ limit) :
    ∃ g, s.callGraph t root depth limit = some g ∧ ∀ n k, ⟨n, k⟩ ∈ g.entries ↔
      s.node? n.id = some n ∧ 0 < k ∧ k ≤ min (max depth 1) maxCallDepth ∧
        Distance (s.Joins [.calls] t) root n.id k := by
  obtain ⟨r, hr⟩ := hasNode_iff.1 hroot
  refine ⟨_, callGraph_eq hr depth limit, fun n k => ?_⟩
  rw [← (layers_callWalk hs hroot depth hlimit).mem_iff, CallEntry.mem_map_place]
  rfl

end Store

end CodeGraph

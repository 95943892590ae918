import CodeGraph.Proofs.Query.Layers
import Mathlib.Order.Nat

/-!
# Dependency walks are breadth-first searches

A dependency walk also queues identifiers that name no declaration. No step leads on from them, so
that they change no distance.

* `Store.Follows`: the relation that the walk searches; `Store.distance_follows`: to a declaration
  its distances are those between declarations.
* `Store.onward`: what is met and queued after one turn; `Store.dependenciesFrom_found` and the
  like: what each kind of turn lists.
* `DependencySearch`: a walk under way, kept by one turn (`DependencySearch.stop`,
  `DependencySearch.turn`), so that a run lists all that it can reach (`DependencySearch.run`).
* **`Store.mem_dependencyWalk`**: with room for all declarations a walk lists those at a distance of
  at least one, up to one if it is not transitive, each with its distance.
-/

namespace CodeGraph

open Std

namespace Store

variable {s : Store} {kinds : List EdgeKind} {t : Towards}

/-- An edge of one of the kinds leads from a declaration to the identifier. -/
def Follows (s : Store) (kinds : List EdgeKind) (t : Towards) (a b : NodeId) : Prop :=
  s.hasNode a = true ∧ s.Leads kinds t a b

theorem stepsTo_follows {a b : NodeId} {k : Nat} (hb : s.hasNode b = true) :
    StepsTo (s.Follows kinds t) k a b ↔ StepsTo (s.Joins kinds t) k a b := by
  refine ⟨fun h => ?_, StepsTo.mono fun c d hcd => ⟨hcd.1, hcd.2.2⟩⟩
  induction k generalizing b with
  | zero => exact h
  | succ k ih =>
    obtain ⟨c, hac, hc, hcb⟩ := h
    exact ⟨c, ih hc hac, hc, hb, hcb⟩

theorem distance_follows {a b : NodeId} {k : Nat} (hb : s.hasNode b = true) :
    Distance (s.Follows kinds t) a b k ↔ Distance (s.Joins kinds t) a b k := by
  simp only [Distance, stepsTo_follows hb]

theorem length_le_of_frontier_follows {more : Nat → Prop} {root : NodeId}
    {done queue : List (NodeId × Nat)} (h : Frontier (s.Follows kinds t) more root done queue) :
    (done ++ queue).length ≤ s.edgeCount + 1 :=
  length_le_of_frontier_of_ends kinds t (fun a _ hab => ⟨a, hab.2⟩) h

end Store

/-! ## One turn of a walk -/

/-- Whether a walk goes on from a depth. -/
def GoesOn (transitive : Bool) (depth : Nat) : Prop := transitive = true ∨ depth < 1

theorem forall_goesOn {transitive : Bool} {k : Nat} :
    (∀ j < k, GoesOn transitive j) ↔ transitive = true ∨ k ≤ 1 := by
  unfold GoesOn
  cases transitive with
  | true => simp
  | false =>
    simp only [Bool.false_eq_true, false_or]
    exact forall_lt_iff_le

/-- What is left to look at, with its depth. -/
def DependencyStep.place (q : DependencyStep) : NodeId × Nat := (q.id, q.depth)

/-- An entry as a declaration with its depth. -/
def DependencyEntry.place (e : DependencyEntry) : Node × Nat := (e.node, e.depth)

theorem DependencyEntry.mem_map_place {es : List DependencyEntry} {n : Node} {k : Nat} :
    (n, k) ∈ es.map place ↔ ∃ via, ⟨n, k, via⟩ ∈ es := by
  constructor
  · intro h
    obtain ⟨e, he, heq⟩ := List.mem_map.1 h
    cases heq
    exact ⟨e.via, he⟩
  · rintro ⟨via, he⟩
    exact List.mem_map_of_mem he

theorem map_place_queueFresh (visited : ExtTreeSet NodeId) (queue : List DependencyStep)
    (next : List (NodeId × EdgeKind)) (k : Nat) (via : Option NodeId) :
    (queueFresh visited queue next k via).2.map DependencyStep.place =
      queue.map DependencyStep.place ++ ((pickFresh visited next).2.map (·.1)).map (·, k) := by
  rw [queueFresh, List.map_append, List.map_map, List.map_map]
  rfl

namespace Store

variable {s : Store} {t : Towards} {transitive : Bool} {fuel limit : Nat}
  {visited : ExtTreeSet NodeId} {queue : List DependencyStep} {q : DependencyStep}

/-- What a walk has met and queued once it has looked at a declaration. -/
def onward (s : Store) (t : Towards) (transitive : Bool) (visited : ExtTreeSet NodeId)
    (queue : List DependencyStep) (q : DependencyStep) : ExtTreeSet NodeId × List DependencyStep :=
  if transitive then
    queueFresh visited queue (s.neighbors q.id [.dependsOn] t) (q.depth + 1) (some q.id)
  else (visited, queue)

theorem dependenciesFrom_nil :
    s.dependenciesFrom t transitive fuel limit visited [] = ([], false) := by
  cases fuel <;> rfl

theorem dependenciesFrom_missing (hq : s.node? q.id = none) :
    s.dependenciesFrom t transitive (fuel + 1) limit visited (q :: queue) =
      s.dependenciesFrom t transitive fuel limit visited queue := by
  rw [dependenciesFrom, hq]

theorem dependenciesFrom_full {node : Node} (hq : s.node? q.id = some node) :
    s.dependenciesFrom t transitive (fuel + 1) 0 visited (q :: queue) = ([], true) := by
  rw [dependenciesFrom, hq]

theorem dependenciesFrom_found {node : Node} (hq : s.node? q.id = some node) :
    s.dependenciesFrom t transitive (fuel + 1) (limit + 1) visited (q :: queue) =
      (⟨node, q.depth, q.via⟩ ::
        (s.dependenciesFrom t transitive fuel limit (s.onward t transitive visited queue q).1
          (s.onward t transitive visited queue q).2).1,
      (s.dependenciesFrom t transitive fuel limit (s.onward t transitive visited queue q).1
        (s.onward t transitive visited queue q).2).2) := by
  rw [dependenciesFrom, hq]
  rfl

end Store

/-- A walk under way is a search, also of the identifiers that name no declaration. -/
structure DependencySearch (s : Store) (t : Towards) (transitive : Bool) (root : NodeId)
    (done : List (NodeId × Nat)) (visited : ExtTreeSet NodeId) (queue : List DependencyStep) :
    Prop where
  frontier : Frontier (s.Follows [.dependsOn] t) (GoesOn transitive) root done
    (queue.map DependencyStep.place)
  visited : ∀ id, id ∈ visited ↔ id ∈ (done ++ queue.map DependencyStep.place).map (·.1)

namespace DependencySearch

variable {s : Store} {t : Towards} {transitive : Bool} {root : NodeId}
  {done : List (NodeId × Nat)} {visited : ExtTreeSet NodeId} {queue : List DependencyStep}
  {q : DependencyStep}

theorem start (s : Store) (t : Towards) (transitive : Bool) (root : NodeId) :
    DependencySearch s t transitive root [] (ExtTreeSet.ofList [root]) [⟨root, 0, none⟩] :=
  ⟨.start _ _ _, fun id => by simpa [DependencyStep.place] using eq_comm⟩

theorem stop (h : DependencySearch s t transitive root done visited (q :: queue))
    (hend : GoesOn transitive q.depth → ∀ b, ¬ s.Follows [.dependsOn] t q.id b) :
    DependencySearch s t transitive root (done ++ [q.place]) visited queue := by
  refine ⟨Frontier.stop h.frontier hend, fun id => ?_⟩
  rw [h.visited id, List.map_cons, List.append_cons]

theorem expand (hs : s.Coherent)
    (h : DependencySearch s t transitive root done visited (q :: queue))
    (hq : s.hasNode q.id = true) (hmore : GoesOn transitive q.depth) (via : Option NodeId) :
    DependencySearch s t transitive root (done ++ [q.place])
      (queueFresh visited queue (s.neighbors q.id [.dependsOn] t) (q.depth + 1) via).1
      (queueFresh visited queue (s.neighbors q.id [.dependsOn] t) (q.depth + 1) via).2 := by
  have hfresh : ∀ b, b ∈ (pickFresh visited (s.neighbors q.id [.dependsOn] t)).2.map (·.1) ↔
      s.Follows [.dependsOn] t q.id b ∧
        b ∉ (done ++ (q :: queue).map DependencyStep.place).map (·.1) := by
    intro b
    rw [mem_pickFresh, Store.mem_neighbors hs, h.visited, Store.Follows, and_iff_right hq]
  constructor
  · rw [map_place_queueFresh]
    exact Frontier.expand h.frontier hmore (nodup_pickFresh _ _) hfresh
  · intro id
    rw [map_place_queueFresh]
    have happ : ∀ new, done ++ [q.place] ++ (queue.map DependencyStep.place ++ new) =
        done ++ (q :: queue).map DependencyStep.place ++ new := by simp
    show id ∈ (pickFresh visited (s.neighbors q.id [.dependsOn] t)).1 ↔ _
    rw [happ, List.map_append, List.mem_append, mem_pickFresh_visited, h.visited]
    simp [Function.comp_def]

theorem turn (hs : s.Coherent) (h : DependencySearch s t transitive root done visited (q :: queue))
    (hroot : (root, 0) ∈ done) (hq : s.hasNode q.id = true) :
    DependencySearch s t transitive root (done ++ [q.place])
      (s.onward t transitive visited queue q).1 (s.onward t transitive visited queue q).2 := by
  unfold Store.onward
  split
  case isTrue htr => exact h.expand hs hq (Or.inl htr) _
  case isFalse htr =>
    have hpos : 0 < q.depth := h.frontier.pos_of_mem_queue hroot List.mem_cons_self
    refine h.stop fun hmore => ?_
    rcases hmore with hmore | hmore
    · exact absurd hmore htr
    · omega

/-- A walk comes to a declaration before it has listed as many as there are. -/
theorem length_resolve_lt (hs : s.Coherent)
    (h : DependencySearch s t transitive root done visited (q :: queue)) {n : Node × Nat}
    (hq : s.resolve q.place = some n) : (done.filterMap s.resolve).length < s.nodeCount := by
  have hlen := Store.length_resolve_le_of_frontier hs h.frontier
  rw [List.map_cons, List.filterMap_append, List.filterMap_cons_some hq, List.length_append,
    List.length_cons] at hlen
  omega

/-! ## A whole walk -/

theorem run (hs : s.Coherent) (fuel limit : Nat)
    (h : DependencySearch s t transitive root done visited queue) (hroot : (root, 0) ∈ done)
    (hfuel : s.edgeCount + 1 < fuel + done.length)
    (hlimit : s.nodeCount ≤ limit + (done.filterMap s.resolve).length) :
    ∃ rest, Frontier (s.Follows [.dependsOn] t) (GoesOn transitive) root (done ++ rest) [] ∧
      (s.dependenciesFrom t transitive fuel limit visited queue).1.map DependencyEntry.place =
        rest.filterMap s.resolve ∧
      (s.dependenciesFrom t transitive fuel limit visited queue).2 = false := by
  -- every turn uses up one of the fuel, which is enough for all ends of edges, and one of the limit
  -- if it comes to a declaration
  induction fuel generalizing limit visited queue done with
  | zero =>
    have hlen := Store.length_le_of_frontier_follows h.frontier
    rw [List.length_append] at hlen
    omega
  | succ fuel ih =>
    cases queue with
    | nil =>
      rw [Store.dependenciesFrom_nil]
      refine ⟨[], ?_, rfl, rfl⟩
      rw [List.append_nil]
      exact h.frontier
    | cons q queue =>
      have hroot' : (root, 0) ∈ done ++ [q.place] := List.mem_append_left _ hroot
      have hfuel' : s.edgeCount + 1 < fuel + (done ++ [q.place]).length := by
        rw [List.length_append, List.length_singleton]
        omega
      have happ : ∀ rest, done ++ q.place :: rest = done ++ [q.place] ++ rest := by simp
      cases hq : s.node? q.id with
      | none =>
        have hnone : s.resolve q.place = none := by simp [Store.resolve, DependencyStep.place, hq]
        have hdead : ∀ b, ¬ s.Follows [.dependsOn] t q.id b := by
          simp [Store.Follows, Store.hasNode_iff, hq]
        have hlimit' : s.nodeCount ≤ limit + ((done ++ [q.place]).filterMap s.resolve).length := by
          rwa [List.filterMap_append, List.filterMap_cons_none hnone, List.filterMap_nil,
            List.append_nil]
        obtain ⟨rest, hfront, hentries⟩ := ih limit (h.stop fun _ => hdead) hroot' hfuel' hlimit'
        refine ⟨q.place :: rest, by rwa [happ], ?_⟩
        rw [Store.dependenciesFrom_missing hq, List.filterMap_cons_none hnone]
        exact hentries
      | some node =>
        have hsome : s.resolve q.place = some (node, q.depth) := Store.resolve_eq_some hq
        have hroom := h.length_resolve_lt hs hsome
        obtain ⟨limit, rfl⟩ : ∃ m, limit = m + 1 := Nat.exists_eq_succ_of_ne_zero (by omega)
        have hlimit' : s.nodeCount ≤ limit + ((done ++ [q.place]).filterMap s.resolve).length := by
          rw [List.filterMap_append, List.filterMap_cons_some hsome, List.filterMap_nil,
            List.length_append, List.length_singleton]
          omega
        obtain ⟨rest, hfront, hentries, hall⟩ :=
          ih limit (h.turn hs hroot (Store.hasNode_iff.2 ⟨node, hq⟩)) hroot' hfuel' hlimit'
        refine ⟨q.place :: rest, by rwa [happ], ?_⟩
        rw [Store.dependenciesFrom_found hq, List.filterMap_cons_some hsome, ← hentries]
        exact ⟨rfl, hall⟩

end DependencySearch

namespace Store

variable {s : Store} {t : Towards} {root : NodeId} {limit : Nat}

/-- What a dependency walk has met and queued at its root. -/
def firstDependencies (s : Store) (t : Towards) (root : NodeId) :
    ExtTreeSet NodeId × List DependencyStep :=
  queueFresh (ExtTreeSet.ofList [root]) [] (s.neighbors root [.dependsOn] t) 1 none

/-- The entries of a dependency walk, and whether the limit ended it. -/
def listedDependencies (s : Store) (t : Towards) (root : NodeId) (transitive : Bool)
    (limit : Nat) : List DependencyEntry × Bool :=
  s.dependenciesFrom t transitive (s.edgeCount + 1) limit (s.firstDependencies t root).1
    (s.firstDependencies t root).2

/-- What a walk shows of itself. -/
def shownDependencies (r : Node) (transitive : Bool) (found : List DependencyEntry × Bool) :
    Dependencies :=
  { root := r, transitive, entries := found.1, truncated := found.2 }

theorem dependencyWalk_eq {r : Node} (hr : s.node? root = some r) (transitive : Bool)
    (limit : Nat) :
    s.dependencyWalk t root transitive limit =
      some (shownDependencies r transitive (s.listedDependencies t root transitive limit)) := by
  rw [dependencyWalk, hr]
  rfl

/-- With room for all declarations a walk lists those at a distance of at least one, up to one if it
is not transitive, and the limit does not end it. -/
theorem layers_listedDependencies (hs : s.Coherent) (hroot : s.hasNode root = true)
    (transitive : Bool) (hlimit : s.nodeCount ≤ limit) :
    s.Layers (s.Joins [.dependsOn] t) root (fun k => transitive = true ∨ k ≤ 1)
        ((s.listedDependencies t root transitive limit).1.map DependencyEntry.place) ∧
      (s.listedDependencies t root transitive limit).2 = false := by
  have hfirst : DependencySearch s t transitive root [(root, 0)] (s.firstDependencies t root).1
      (s.firstDependencies t root).2 :=
    (DependencySearch.start s t transitive root).expand hs hroot (.inr Nat.zero_lt_one) none
  obtain ⟨met, hfront, hentries, hall⟩ := hfirst.run hs (s.edgeCount + 1) limit
    (List.mem_singleton_self _) (by simp) (Nat.le_trans hlimit (Nat.le_add_right _ _))
  refine ⟨?_, hall⟩
  rw [listedDependencies, hentries]
  exact (layers_of_frontier hs hfront fun _ => forall_goesOn).congr (fun _ => Iff.rfl)
    fun _ hn _ => distance_follows hn

/-- **With room for all declarations, a dependency walk lists those at a distance of at least one**,
up to one if it is not transitive, each with its distance. -/
theorem mem_dependencyWalk (hs : s.Coherent) (hroot : s.hasNode root = true) (transitive : Bool)
    (hlimit : s.nodeCount ≤ limit) :
    ∃ d, s.dependencyWalk t root transitive limit = some d ∧
      ∀ n k, (∃ via, ⟨n, k, via⟩ ∈ d.entries) ↔
        s.node? n.id = some n ∧ 0 < k ∧ (transitive = true ∨ k ≤ 1) ∧
          Distance (s.Joins [.dependsOn] t) root n.id k := by
  obtain ⟨r, hr⟩ := hasNode_iff.1 hroot
  refine ⟨_, dependencyWalk_eq hr transitive limit, fun n k => ?_⟩
  rw [← (layers_listedDependencies hs hroot transitive hlimit).1.mem_iff,
    DependencyEntry.mem_map_place]
  rfl

end Store

end CodeGraph

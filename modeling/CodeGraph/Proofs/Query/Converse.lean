import CodeGraph.Proofs.Query.Calls
import CodeGraph.Proofs.Query.Dependencies

/-!
# Walks in the two directions are converse

Callees are read from the index of outgoing edges and callers from that of incoming ones, in walks
that start at different ends and meet the declarations between in different orders. Both list a
declaration at its distance, and a shortest walk read backwards is a shortest walk.

* `Store.callGraph_converse`, `Store.dependencyWalk_converse`: of a coherent store.
* **`Store.run_walks_converse`**: after any sequence of operations.
-/

namespace CodeGraph

namespace Store

variable {s : Store} {x y : NodeId} {nx ny : Node} {limit limit' : Nat}

theorem callGraph_converse (hs : s.Coherent) (hx : s.node? x = some nx) (hy : s.node? y = some ny)
    (depth : Nat) (hlimit : s.nodeCount ≤ limit) (hlimit' : s.nodeCount ≤ limit') :
    ∃ callees callers, s.callGraph .targets x depth limit = some callees ∧
      s.callGraph .sources y depth limit' = some callers ∧
      ∀ k, (⟨ny, k⟩ ∈ callees.entries ↔ ⟨nx, k⟩ ∈ callers.entries) ∧
        (⟨ny, k⟩ ∈ callees.entries ↔ 0 < k ∧ k ≤ min (max depth 1) maxCallDepth ∧
          Distance (s.Joins [.calls] .targets) x y k) := by
  obtain ⟨callees, hcallees, htargets⟩ :=
    mem_callGraph hs (t := .targets) (hasNode_iff.2 ⟨nx, hx⟩) depth hlimit
  obtain ⟨callers, hcallers, hsources⟩ :=
    mem_callGraph hs (t := .sources) (hasNode_iff.2 ⟨ny, hy⟩) depth hlimit'
  refine ⟨callees, callers, hcallees, hcallers, fun k => ?_⟩
  rw [htargets ny, hsources nx, hs.node_id hx, hs.node_id hy, distance_sources,
    and_iff_right hx, and_iff_right hy]
  exact ⟨Iff.rfl, Iff.rfl⟩

theorem dependencyWalk_converse (hs : s.Coherent) (hx : s.node? x = some nx)
    (hy : s.node? y = some ny) (transitive : Bool) (hlimit : s.nodeCount ≤ limit)
    (hlimit' : s.nodeCount ≤ limit') :
    ∃ dependencies dependents, s.dependencyWalk .targets x transitive limit = some dependencies ∧
      s.dependencyWalk .sources y transitive limit' = some dependents ∧
      ∀ k, ((∃ via, ⟨ny, k, via⟩ ∈ dependencies.entries) ↔
          ∃ via, ⟨nx, k, via⟩ ∈ dependents.entries) ∧
        ((∃ via, ⟨ny, k, via⟩ ∈ dependencies.entries) ↔ 0 < k ∧ (transitive = true ∨ k ≤ 1) ∧
          Distance (s.Joins [.dependsOn] .targets) x y k) := by
  obtain ⟨dependencies, hdependencies, htargets⟩ :=
    mem_dependencyWalk hs (t := .targets) (hasNode_iff.2 ⟨nx, hx⟩) transitive hlimit
  obtain ⟨dependents, hdependents, hsources⟩ :=
    mem_dependencyWalk hs (t := .sources) (hasNode_iff.2 ⟨ny, hy⟩) transitive hlimit'
  refine ⟨dependencies, dependents, hdependencies, hdependents, fun k => ?_⟩
  rw [htargets ny, hsources nx, hs.node_id hx, hs.node_id hy, distance_sources,
    and_iff_right hx, and_iff_right hy]
  exact ⟨Iff.rfl, Iff.rfl⟩

/-- **After any sequence of operations the walks in the two directions are converse.** With limits
that leave room for all declarations, one is among the callees of another at a depth exactly if this
is among its callers at that depth, and likewise for dependencies and dependents; the depth is the
distance between them. -/
theorem run_walks_converse (ops : List Operation) (hx : (run ops).node? x = some nx)
    (hy : (run ops).node? y = some ny) (depth : Nat) (hlimit : (run ops).nodeCount ≤ limit)
    (hlimit' : (run ops).nodeCount ≤ limit') :
    (∃ callees callers, (run ops).callGraph .targets x depth limit = some callees ∧
      (run ops).callGraph .sources y depth limit' = some callers ∧
      ∀ k, (⟨ny, k⟩ ∈ callees.entries ↔ ⟨nx, k⟩ ∈ callers.entries) ∧
        (⟨ny, k⟩ ∈ callees.entries ↔ 0 < k ∧ k ≤ min (max depth 1) maxCallDepth ∧
          Distance ((run ops).Joins [.calls] .targets) x y k)) ∧
    ∀ transitive, ∃ dependencies dependents,
      (run ops).dependencyWalk .targets x transitive limit = some dependencies ∧
      (run ops).dependencyWalk .sources y transitive limit' = some dependents ∧
      ∀ k, ((∃ via, ⟨ny, k, via⟩ ∈ dependencies.entries) ↔
          ∃ via, ⟨nx, k, via⟩ ∈ dependents.entries) ∧
        ((∃ via, ⟨ny, k, via⟩ ∈ dependencies.entries) ↔ 0 < k ∧ (transitive = true ∨ k ≤ 1) ∧
          Distance ((run ops).Joins [.dependsOn] .targets) x y k) :=
  have hs := coherent_run ops
  ⟨callGraph_converse hs hx hy depth hlimit hlimit',
    fun transitive => dependencyWalk_converse hs hx hy transitive hlimit hlimit'⟩

/-- A declaration of a ring. -/
def ringNode (id : NodeId) : Node :=
  { id, name := id, qualifiedName := id, kind := .method, file := ⟨"r.cs"⟩ }

/-- A ring of three declarations that call and need the next one, with a short cut through an
identifier that names none. -/
def ring : List Operation :=
  [.addNodes (["a", "b", "c"].map ringNode),
   .addEdges ([EdgeKind.calls, .dependsOn].flatMap fun kind =>
     [("a", "b"), ("b", "c"), ("c", "a"), ("a", "x"), ("x", "c")].map fun e =>
       { id := kind.name ++ e.1 ++ e.2, source := e.1, target := e.2, kind })]

theorem distance_ring {kind : EdgeKind} (h : kind ∈ [EdgeKind.calls, .dependsOn]) :
    Distance ((run ring).Joins [kind] .targets) "a" "c" 2 := by
  have hjoins : ∀ kind ∈ [EdgeKind.calls, .dependsOn],
      (run ring).Joins [kind] .targets "a" "b" ∧ (run ring).Joins [kind] .targets "b" "c" ∧
        ¬ (run ring).Joins [kind] .targets "a" "c" := by decide +kernel
  obtain ⟨hab, hbc, hac⟩ := hjoins kind h
  refine ⟨⟨"b", ⟨"a", rfl, hab⟩, hbc⟩, fun j hj => ?_⟩
  match j, hj with
  | 0, hj => exact absurd (show "a" = "c" from hj) (by decide)
  | 1, ⟨_, rfl, hj⟩ => exact absurd hj hac
  | j + 2, _ => exact Nat.le_add_left 2 j

theorem mem_layers_ring {kind : EdgeKind} (h : kind ∈ [EdgeKind.calls, .dependsOn])
    {within : Nat → Prop} (hone : within 1) (htwo : within 2) {found : List (Node × Nat)}
    (hlayers : (run ring).Layers ((run ring).Joins [kind] .targets) "a" within found) :
    (ringNode "b", 1) ∈ found ∧ (ringNode "c", 2) ∈ found ∧ 1 < found.length := by
  have hjoins : ∀ kind ∈ [EdgeKind.calls, .dependsOn],
      (run ring).Joins [kind] .targets "a" "b" := by decide +kernel
  have hsecond : (run ring).node? "b" = some (ringNode "b") := by decide +kernel
  have hthird : (run ring).node? "c" = some (ringNode "c") := by decide +kernel
  have hnext : Distance ((run ring).Joins [kind] .targets) "a" "b" 1 := by
    refine ⟨⟨"a", rfl, hjoins kind h⟩, fun j hj => Nat.pos_of_ne_zero ?_⟩
    rintro rfl
    exact absurd (show "a" = "b" from hj) (by decide)
  have hb := (hlayers.mem_iff (ringNode "b") 1).2 ⟨hsecond, by decide, hone, hnext⟩
  have hc := (hlayers.mem_iff (ringNode "c") 2).2 ⟨hthird, by decide, htwo, distance_ring h⟩
  have hlen : [(ringNode "b", 1), (ringNode "c", 2)].length ≤ found.length :=
    (List.subperm_of_subset (by decide) (by simp [hb, hc])).length_le
  exact ⟨hb, hc, hlen⟩

/-- The third declaration is two steps from the first, and the first two steps back from it. -/
theorem run_walks_converse_ring :
    (∃ callees callers, (run ring).callGraph .targets "a" 9 3 = some callees ∧
      (run ring).callGraph .sources "c" 9 3 = some callers ∧
      ⟨ringNode "c", 2⟩ ∈ callees.entries ∧ ⟨ringNode "a", 2⟩ ∈ callers.entries) ∧
    ∃ dependencies dependents,
      (run ring).dependencyWalk .targets "a" true 3 = some dependencies ∧
      (run ring).dependencyWalk .sources "c" true 3 = some dependents ∧
      (∃ via, ⟨ringNode "c", 2, via⟩ ∈ dependencies.entries) ∧
      ∃ via, ⟨ringNode "a", 2, via⟩ ∈ dependents.entries := by
  have hroom : (run ring).nodeCount ≤ 3 := by decide +kernel
  have hfirst : (run ring).node? "a" = some (ringNode "a") := by decide +kernel
  have hthird : (run ring).node? "c" = some (ringNode "c") := by decide +kernel
  obtain ⟨⟨callees, callers, hcallees, hcallers, hcalls⟩, hwalks⟩ :=
    run_walks_converse ring hfirst hthird 9 hroom hroom
  obtain ⟨dependencies, dependents, hdependencies, hdependents, hdepends⟩ := hwalks true
  have hcallee := (hcalls 2).2.2 ⟨by decide, by decide, distance_ring (by decide)⟩
  have hdependency := (hdepends 2).2.2 ⟨by decide, .inl rfl, distance_ring (by decide)⟩
  exact ⟨⟨callees, callers, hcallees, hcallers, hcallee, (hcalls 2).1.1 hcallee⟩,
    dependencies, dependents, hdependencies, hdependents, hdependency,
    (hdepends 2).1.1 hdependency⟩

end Store

end CodeGraph

import CodeGraph.Proofs.Query.Lineage
import Mathlib.Data.List.Permutation

/-!
# What an inheritance walk misses below its greatest depth

A type is stacked by the first listed that leads to it, at one level more, and stays there. If a
shorter way leads to it through a type listed later, it stands deeper than it is far, and what lies
beyond it may pass the greatest depth although it is near enough.

* `Store.Reports`: all that is near enough is listed, each at its distance.
* `Store.mem_listedInheritance_iff`: what a walk lists.
* `Store.reports_iff`: a walk reports all that is near enough exactly if no entry is deeper than it
  is far. So it does with a greatest depth of two (`Store.reports_of_le_two`), and where ways of
  different lengths do not meet (`Store.reports_of_even`).
* **`Store.run_inheritance_reports_iff`**: after any sequence of operations;
  `Store.detour_not_reports`: a walk that misses a type.
-/

namespace CodeGraph

namespace Store

/-- All declarations up to a distance are listed, each at its distance. -/
def Reports (s : Store) (t : Towards) (root : NodeId) (maxDepth : Nat)
    (entries : List InheritanceEntry) : Prop :=
  ∀ n k, s.node? n.id = some n → n.id ≠ root → k ≤ maxDepth →
    Distance (s.Joins inheritanceKinds t) root n.id k → ∃ kind, ⟨n, kind, k⟩ ∈ entries

variable {s : Store} {t : Towards} {maxDepth : Nat} {root : NodeId} {r : Node}

section Walk

variable (hs : s.Coherent) (hr : s.node? root = some r)
include hs hr

theorem exists_distance_of_mem {e : InheritanceEntry}
    (he : e ∈ s.listedInheritance t root maxDepth) :
    ∃ k, 0 < k ∧ k ≤ e.depth ∧ Distance (s.Joins inheritanceKinds t) root e.node.id k := by
  have hsteps := reaches_of_mem_listedInheritance hs hr (List.mem_cons_of_mem _ he)
  obtain ⟨k, hk⟩ := exists_distance_iff.2 (exists_stepsTo_iff.1 ⟨e.depth, hsteps⟩)
  have hne := ((lineage_listedInheritance hs hr t maxDepth).stored e he).2
  exact ⟨k, hk.pos_iff.2 hne, hk.2 e.depth hsteps, hk⟩

theorem mem_listedInheritance_iff (n : Node) :
    n ∈ (s.listedInheritance t root maxDepth).map (·.node) ↔
      s.node? n.id = some n ∧ n.id ≠ root ∧
        ((0 < maxDepth ∧ s.Joins inheritanceKinds t root n.id) ∨
          ∃ p ∈ s.listedInheritance t root maxDepth, p.depth < maxDepth ∧
            s.Joins inheritanceKinds t p.node.id n.id) := by
  obtain ⟨unknown, visited, h⟩ := searched_inheritance hs hr t maxDepth
  have hlineage := lineage_listedInheritance hs hr t maxDepth
  have hroot : (rootEntry r).node.id = root := hs.node_id hr
  constructor
  · intro hn
    obtain ⟨e, he, rfl⟩ := List.mem_map.1 hn
    obtain ⟨hstored, hne⟩ := hlineage.stored e he
    refine ⟨hstored, hne, ?_⟩
    obtain ⟨p, hp, -, hmax, hjoins⟩ := h.exists_above hs hr he
    rcases List.mem_cons.1 hp with rfl | hp
    · exact .inl ⟨hmax, hroot ▸ hjoins⟩
    · exact .inr ⟨p, hp, hmax, hjoins⟩
  · rintro ⟨hn, hne, hjoined⟩
    have hmem : n.id ∈ (rootEntry r :: s.listedInheritance t root maxDepth).map (·.node.id) := by
      rcases hjoined with ⟨hmax, -, hnode, hleads⟩ | ⟨p, hp, hmax, -, hnode, hleads⟩
      · exact h.mem_of_leads List.mem_cons_self hmax hnode (hroot.symm ▸ hleads)
      · exact h.mem_of_leads (List.mem_cons_of_mem _ hp) hmax hnode hleads
    rw [List.map_cons, List.mem_cons, hroot, or_iff_right hne] at hmem
    obtain ⟨e, he, heid⟩ := List.mem_map.1 hmem
    have hstored := (hlineage.stored e he).1
    rw [heid, hn] at hstored
    exact List.mem_map.2 ⟨e, he, (Option.some_inj.1 hstored).symm⟩

/-- What is joined to the root stands at depth one: no entry is listed before the root. -/
theorem depth_eq_one_of_joins {e : InheritanceEntry}
    (he : e ∈ s.listedInheritance t root maxDepth)
    (hjoins : s.Joins inheritanceKinds t root e.node.id) : e.depth = 1 := by
  obtain ⟨unknown, visited, h⟩ := searched_inheritance hs hr t maxDepth
  obtain ⟨before, after, hsplit⟩ := List.append_of_mem he
  obtain ⟨earlier, p, between, hlisted, hdepth, hmax, -, -, hfirst, -⟩ :=
    h.hangs_entry hs hr hsplit
  cases earlier with
  | nil =>
    obtain ⟨rfl, -⟩ := List.cons.inj hlisted
    exact hdepth
  | cons first earlier =>
    obtain ⟨rfl, -⟩ := List.cons.inj hlisted
    refine absurd ?_ (hfirst (rootEntry r) List.mem_cons_self (Nat.zero_lt_of_lt hmax))
    exact (hs.node_id hr).symm ▸ hjoins.2.2

/-! ## When nothing is missed -/

/-- If no entry is deeper than it is far, the walk takes every way that is short enough. -/
theorem mem_of_stepsTo
    (hexact : ∀ e ∈ s.listedInheritance t root maxDepth,
      Distance (s.Joins inheritanceKinds t) root e.node.id e.depth)
    {k : Nat} (hk : k ≤ maxDepth) {b : NodeId}
    (hb : StepsTo (s.Joins inheritanceKinds t) k root b) :
    b ∈ (rootEntry r :: s.listedInheritance t root maxDepth).map (·.node.id) := by
  obtain ⟨unknown, visited, h⟩ := searched_inheritance hs hr t maxDepth
  induction k generalizing b with
  | zero =>
    obtain rfl : root = b := hb
    exact List.mem_map.2 ⟨rootEntry r, List.mem_cons_self, hs.node_id hr⟩
  | succ k ih =>
    obtain ⟨c, hc, hcb⟩ := hb
    obtain ⟨e, he, rfl⟩ := List.mem_map.1 (ih (by omega) hc)
    have hdepth : e.depth ≤ k := by
      rcases List.mem_cons.1 he with rfl | he
      · exact Nat.zero_le k
      · exact (hexact e he).2 k hc
    exact h.mem_of_leads he (by omega) hcb.2.1 hcb.2.2

/-- **A walk reports all that is near enough exactly if no entry is deeper than it is far.** -/
theorem reports_iff :
    s.Reports t root maxDepth (s.listedInheritance t root maxDepth) ↔
      ∀ e ∈ s.listedInheritance t root maxDepth,
        Distance (s.Joins inheritanceKinds t) root e.node.id e.depth := by
  have hlineage := lineage_listedInheritance hs hr t maxDepth
  constructor
  · intro hreports e he
    obtain ⟨hstored, hne⟩ := hlineage.stored e he
    obtain ⟨k, -, hk, hdist⟩ := exists_distance_of_mem hs hr he
    obtain ⟨kind, hmem⟩ :=
      hreports e.node k hstored hne (hk.trans (hlineage.depth e he).2) hdist
    have heq := List.inj_on_of_nodup_map hlineage.once hmem he rfl
    rwa [← show k = e.depth from congrArg InheritanceEntry.depth heq]
  · intro hexact n k hn hne hk hdist
    have hmem := mem_of_stepsTo hs hr hexact hk hdist.1
    rw [List.map_cons, List.mem_cons, rootEntry, hs.node_id hr, or_iff_right hne] at hmem
    obtain ⟨e, he, heid⟩ := List.mem_map.1 hmem
    have hstored := (hlineage.stored e he).1
    rw [heid, hn] at hstored
    obtain rfl := Option.some_inj.1 hstored
    obtain rfl : k = e.depth :=
      Nat.le_antisymm (hdist.2 _ (hexact e he).1) ((hexact e he).2 _ hdist.1)
    exact ⟨e.relationship, he⟩

theorem reports_of_le_two (hmax : maxDepth ≤ 2) :
    s.Reports t root maxDepth (s.listedInheritance t root maxDepth) := by
  refine (reports_iff hs hr).2 fun e he => ?_
  obtain ⟨k, hpos, hk, hdist⟩ := exists_distance_of_mem hs hr he
  have hle := ((lineage_listedInheritance hs hr t maxDepth).depth e he).2
  -- only a type at distance one could stand at depth two instead
  have hone : k = 1 → e.depth = 1 := by
    rintro rfl
    obtain ⟨c, rfl, hjoins⟩ := hdist.1
    exact depth_eq_one_of_joins hs hr he hjoins
  obtain rfl : k = e.depth := by omega
  exact hdist

theorem reports_of_even
    (heven : ∀ b j k, j ≤ maxDepth → k ≤ maxDepth →
      StepsTo (s.Joins inheritanceKinds t) j root b →
      StepsTo (s.Joins inheritanceKinds t) k root b → j = k) :
    s.Reports t root maxDepth (s.listedInheritance t root maxDepth) := by
  refine (reports_iff hs hr).2 fun e he => ?_
  obtain ⟨k, -, hk, hdist⟩ := exists_distance_of_mem hs hr he
  have hle := ((lineage_listedInheritance hs hr t maxDepth).depth e he).2
  have hsteps := reaches_of_mem_listedInheritance hs hr (List.mem_cons_of_mem _ he)
  obtain rfl := heven e.node.id k e.depth (hk.trans hle) hle hdist.1 hsteps
  exact hdist

end Walk

/-- **After any sequence of operations an inheritance walk lists what is joined to its root or to an
entry above the greatest depth**, each declaration at least as deep as it is far. So it reports all
that is near enough, each at its distance, exactly if no entry is deeper than it is far; in
particular with a greatest depth of two, and if no ways of different lengths meet. -/
theorem run_inheritance_reports_iff (ops : List Operation) {id : NodeId}
    (hid : (run ops).hasNode id = true) (direction : HierarchyDirection) (maxDepth : Nat) :
    ∃ i, (run ops).inheritance id direction maxDepth = some i ∧
      (∀ n, n ∈ i.entries.map (·.node) ↔ (run ops).node? n.id = some n ∧ n.id ≠ id ∧
        ((0 < maxDepth ∧ (run ops).Joins inheritanceKinds direction.towards id n.id) ∨
          ∃ p ∈ i.entries, p.depth < maxDepth ∧
            (run ops).Joins inheritanceKinds direction.towards p.node.id n.id)) ∧
      (∀ e ∈ i.entries, ∃ k ≤ e.depth,
        Distance ((run ops).Joins inheritanceKinds direction.towards) id e.node.id k) ∧
      ((run ops).Reports direction.towards id maxDepth i.entries ↔ ∀ e ∈ i.entries,
        Distance ((run ops).Joins inheritanceKinds direction.towards) id e.node.id e.depth) ∧
      (maxDepth ≤ 2 → (run ops).Reports direction.towards id maxDepth i.entries) ∧
      ((∀ b j k, j ≤ maxDepth → k ≤ maxDepth →
          StepsTo ((run ops).Joins inheritanceKinds direction.towards) j id b →
          StepsTo ((run ops).Joins inheritanceKinds direction.towards) k id b → j = k) →
        (run ops).Reports direction.towards id maxDepth i.entries) := by
  have hs := coherent_run ops
  obtain ⟨r, hr⟩ := hasNode_iff.1 hid
  refine ⟨_, inheritance_eq hr direction maxDepth, mem_listedInheritance_iff hs hr,
    fun e he => ?_, reports_iff hs hr, reports_of_le_two hs hr, reports_of_even hs hr⟩
  obtain ⟨k, -, hk, hdist⟩ := exists_distance_of_mem hs hr he
  exact ⟨k, hk, hdist⟩

/-- A walk of the detour reports all that is within two steps. -/
theorem run_inheritance_reports_iff_detour :
    (run detour).hasNode "r" = true ∧ ∃ i, (run detour).inheritance "r" .ancestors 2 = some i ∧
      (run detour).Reports .targets "r" 2 i.entries ∧
      ∀ e ∈ i.entries,
        Distance ((run detour).Joins inheritanceKinds .targets) "r" e.node.id e.depth := by
  have hroot : (run detour).hasNode "r" = true := by decide +kernel
  obtain ⟨i, hi, -, -, hreports, htwo, -⟩ := run_inheritance_reports_iff detour hroot .ancestors 2
  exact ⟨hroot, i, hi, htwo (by decide), hreports.1 (htwo (by decide))⟩

/-- How far the types of the detour are from the first. -/
def detourHeight (id : NodeId) : Nat :=
  if id = "r" then 0 else if id ∈ ["a", "b"] then 1 else if id ∈ ["c", "d"] then 2 else 3

theorem detourHeight_le {a b : NodeId} {k : Nat}
    (h : StepsTo ((run detour).Joins inheritanceKinds .targets) k a b) :
    detourHeight b ≤ detourHeight a + k := by
  have hedges : ∀ e ∈ (run detour).allEdges, detourHeight e.target ≤ detourHeight e.source + 1 := by
    decide +kernel
  refine h.height_le fun a b hab => ?_
  obtain ⟨e, he, -, rfl, rfl⟩ := hab.2.2
  exact hedges e he

/-- What a walk of depth three lists of the detour. -/
def detourEntries : List InheritanceEntry :=
  [⟨typeNode "a", .inherits, 1⟩, ⟨typeNode "c", .inherits, 2⟩, ⟨typeNode "d", .inherits, 3⟩,
   ⟨typeNode "b", .inherits, 1⟩]

theorem inheritance_detour :
    (run detour).inheritance "r" .ancestors 3 =
      some ⟨typeNode "r", .ancestors, detourEntries⟩ := by
  cbv

/-- The last type of the detour is three steps from the first, but a walk of depth three misses it:
it comes to the type before it at depth three, although this is two steps from the first. -/
theorem detour_not_reports :
    Distance ((run detour).Joins inheritanceKinds .targets) "r" "d" 2 ∧
    Distance ((run detour).Joins inheritanceKinds .targets) "r" "e" 3 ∧
    ∃ i, (run detour).inheritance "r" .ancestors 3 = some i ∧
      ¬ (run detour).Reports .targets "r" 3 i.entries ∧
      (∀ e ∈ i.entries, e.node ≠ typeNode "e") ∧ ⟨typeNode "d", .inherits, 3⟩ ∈ i.entries := by
  have hrb : (run detour).Joins inheritanceKinds .targets "r" "b" := by decide +kernel
  have hbd : (run detour).Joins inheritanceKinds .targets "b" "d" := by decide +kernel
  have hde : (run detour).Joins inheritanceKinds .targets "d" "e" := by decide +kernel
  have hd : StepsTo ((run detour).Joins inheritanceKinds .targets) 2 "r" "d" :=
    ⟨"b", ⟨"r", rfl, hrb⟩, hbd⟩
  have hfar : Distance ((run detour).Joins inheritanceKinds .targets) "r" "e" 3 :=
    ⟨⟨"d", hd, hde⟩, fun j hj => by simpa [detourHeight] using detourHeight_le hj⟩
  have hmissing : ∀ e ∈ detourEntries, e.node ≠ typeNode "e" := by decide
  refine ⟨⟨hd, fun j hj => by simpa [detourHeight] using detourHeight_le hj⟩, hfar, _,
    inheritance_detour, fun hreports => ?_, hmissing, by decide⟩
  obtain ⟨kind, hmem⟩ :=
    hreports (typeNode "e") 3 (by decide +kernel) (by decide) (Nat.le_refl 3) hfar
  exact hmissing _ hmem rfl

end Store

end CodeGraph

import CodeGraph.Proofs.Query.Hierarchy

/-!
# Inheritance walks list preorders

* `Store.listedInheritance`: the entries of a walk, which `Store.inheritance` shows.
* `Store.Lineage`: a list of entries in which each names its place: the nearest entry before it that
  stands one level above is the one it was reached through.
* **`Store.run_inheritance_preorder`**: after any sequence of operations a walk lists one, and all
  that can be reached if it is deep enough.
-/

namespace CodeGraph

open Std

namespace Store

variable {s : Store} {t : Towards} {maxDepth : Nat} {root : NodeId} {r : Node}

/-- The entries of an inheritance walk. -/
def listedInheritance (s : Store) (t : Towards) (root : NodeId) (maxDepth : Nat) :
    List InheritanceEntry :=
  s.inheritanceFrom t maxDepth (s.edgeCount + 1)
    (s.takenUp t maxDepth (ExtTreeSet.ofList [root]) (rootStep root)).1
    (s.deeper t maxDepth (ExtTreeSet.ofList [root]) (rootStep root) ++ [])

theorem inheritance_eq (hr : s.node? root = some r) (direction : HierarchyDirection)
    (maxDepth : Nat) :
    s.inheritance root direction maxDepth =
      some ⟨r, direction, s.listedInheritance direction.towards root maxDepth⟩ := by
  rw [inheritance, hr, Option.map_some, listedInheritance, deeper, takenUp]
  by_cases hdepth : 0 < maxDepth
  · rw [if_pos (show (rootStep root).depth < maxDepth from hdepth), if_pos hdepth]
    rfl
  · rw [if_neg (show ¬ (rootStep root).depth < maxDepth from hdepth), if_neg hdepth]
    rfl

theorem searched_inheritance (hs : s.Coherent) (hr : s.node? root = some r) (t : Towards)
    (maxDepth : Nat) :
    ∃ unknown visited, InheritanceSearch s t maxDepth root
      (rootEntry r :: s.listedInheritance t root maxDepth) unknown visited [] := by
  have hrun := (InheritanceSearch.start s t maxDepth root).run hs (s.edgeCount + 2) (by simp)
  rwa [List.nil_append, inheritanceFrom_found hr] at hrun

/-- A list of entries as an inheritance walk gives it: each declaration once, at a depth up to the
greatest, and joined, by an edge of the kind it names, to the root if it stands at depth one and
otherwise to the nearest entry before it that stands one level above. -/
structure Lineage (s : Store) (t : Towards) (root : NodeId) (maxDepth : Nat)
    (entries : List InheritanceEntry) : Prop where
  once : (entries.map (·.node.id)).Nodup
  stored : ∀ e ∈ entries, s.node? e.node.id = some e.node ∧ e.node.id ≠ root
  depth : ∀ e ∈ entries, 1 ≤ e.depth ∧ e.depth ≤ maxDepth
  kind : ∀ e ∈ entries, e.relationship ∈ inheritanceKinds
  above : ∀ before e after, entries = before ++ e :: after →
    (e.depth = 1 → s.Joins [e.relationship] t root e.node.id) ∧
    (1 < e.depth → ∃ earlier p between, before = earlier ++ p :: between ∧
      p.depth + 1 = e.depth ∧ (∀ b ∈ between, b.depth + 1 ≠ e.depth) ∧
      s.Joins [e.relationship] t p.node.id e.node.id)

theorem lineage_listedInheritance (hs : s.Coherent) (hr : s.node? root = some r) (t : Towards)
    (maxDepth : Nat) : s.Lineage t root maxDepth (s.listedInheritance t root maxDepth) := by
  obtain ⟨unknown, visited, h⟩ := searched_inheritance hs hr t maxDepth
  have hpos : ∀ e ∈ s.listedInheritance t root maxDepth, 1 ≤ e.depth ∧ e.depth ≤ maxDepth := by
    intro e he
    obtain ⟨p, -, hdepth, hmax, -⟩ := h.exists_above hs hr he
    omega
  constructor
  case once => exact (List.nodup_cons.1 h.nodup_ids).2
  case stored => exact fun e he => ⟨h.stored e (List.mem_cons_of_mem _ he), h.ne_root hs hr he⟩
  case depth => exact hpos
  case kind =>
    intro e he
    obtain ⟨before, after, hsplit⟩ := List.append_of_mem he
    obtain ⟨-, -, -, -, -, -, hkind, -⟩ := h.hangs_entry hs hr hsplit
    exact hkind
  case above =>
    intro before e after hsplit
    have he : e ∈ s.listedInheritance t root maxDepth := by simp [hsplit]
    have hnode := h.hasNode_of_mem (List.mem_cons_of_mem _ he)
    obtain ⟨earlier, p, between, hlisted, hdepth, -, -, hleads, -, hlast⟩ :=
      h.hangs_entry hs hr hsplit
    simp only [InheritanceEntry.step] at hdepth hleads
    cases earlier with
    | nil =>
      obtain ⟨rfl, rfl⟩ := List.cons.inj hlisted
      have hone : e.depth = 1 := hdepth
      refine ⟨fun _ => ⟨hasNode_iff.2 ⟨r, hr⟩, hnode, ?_⟩, fun hlt => absurd hone hlt.ne'⟩
      rwa [← hs.node_id hr]
    | cons first earlier =>
      obtain ⟨rfl, rfl⟩ := List.cons.inj hlisted
      have hp : p ∈ s.listedInheritance t root maxDepth := by simp [hsplit]
      have hdeep := (hpos p hp).1
      refine ⟨fun hone => by omega, fun _ => ⟨earlier, p, between, rfl, hdepth.symm, ?_,
        h.hasNode_of_mem (List.mem_cons_of_mem _ hp), hnode, hleads⟩⟩
      intro b hb hb'
      exact hlast b hb (by omega)

/-- With a greatest depth that no walk can pass, all that can be reached is listed. -/
theorem mem_listedInheritance_of_reaches (hs : s.Coherent) (hr : s.node? root = some r)
    (hmax : s.nodeCount ≤ maxDepth) {b : NodeId}
    (hb : Relation.ReflTransGen (s.Joins inheritanceKinds t) root b) :
    b ∈ (rootEntry r :: s.listedInheritance t root maxDepth).map (·.node.id) := by
  obtain ⟨unknown, visited, h⟩ := searched_inheritance hs hr t maxDepth
  induction hb with
  | refl => exact List.mem_map.2 ⟨rootEntry r, List.mem_cons_self, hs.node_id hr⟩
  | tail _ hab ih =>
    obtain ⟨e, he, rfl⟩ := List.mem_map.1 ih
    exact h.mem_of_leads he ((h.depth_lt hs hr he).trans_le hmax) hab.2.1 hab.2.2

theorem reaches_of_mem_listedInheritance (hs : s.Coherent) (hr : s.node? root = some r)
    {e : InheritanceEntry} (he : e ∈ rootEntry r :: s.listedInheritance t root maxDepth) :
    StepsTo (s.Joins inheritanceKinds t) e.depth root e.node.id := by
  obtain ⟨unknown, visited, h⟩ := searched_inheritance hs hr t maxDepth
  -- along the entries that one hangs from, one level less at each
  induction hk : e.depth generalizing e with
  | zero =>
    rcases List.mem_cons.1 he with rfl | he
    · exact (hs.node_id hr).symm
    · obtain ⟨p, -, hdepth, -⟩ := h.exists_above hs hr he
      omega
  | succ k ih =>
    rcases List.mem_cons.1 he with rfl | he
    · exact absurd hk (Nat.succ_ne_zero k).symm
    · obtain ⟨p, hp, hdepth, -, hjoins⟩ := h.exists_above hs hr he
      exact ⟨p.node.id, ih hp (by omega), hjoins⟩

/-- **After any sequence of operations an inheritance walk lists a preorder.** No declaration is
listed twice, nor the root; an entry stands at a depth from one to the greatest, and is joined to
the root or to the nearest entry before it that stands one level above, by an edge of its kind. If
the greatest depth is at least the number of declarations, it lists exactly those that can be
reached. -/
theorem run_inheritance_preorder (ops : List Operation) {id : NodeId}
    (hid : (run ops).hasNode id = true) (direction : HierarchyDirection) (maxDepth : Nat) :
    ∃ i, (run ops).inheritance id direction maxDepth = some i ∧
      (run ops).node? id = some i.root ∧ i.direction = direction ∧
      (run ops).Lineage direction.towards id maxDepth i.entries ∧
      ((run ops).nodeCount ≤ maxDepth → ∀ n, n ∈ i.entries.map (·.node) ↔
        (run ops).node? n.id = some n ∧ n.id ≠ id ∧
          Relation.ReflTransGen ((run ops).Joins inheritanceKinds direction.towards) id n.id) := by
  have hs := coherent_run ops
  obtain ⟨r, hr⟩ := hasNode_iff.1 hid
  have hlineage := lineage_listedInheritance hs hr direction.towards maxDepth
  refine ⟨_, inheritance_eq hr direction maxDepth, hr, rfl, hlineage, fun hmax n => ?_⟩
  constructor
  · intro hn
    obtain ⟨e, he, rfl⟩ := List.mem_map.1 hn
    obtain ⟨hstored, hne⟩ := hlineage.stored e he
    exact ⟨hstored, hne, exists_stepsTo_iff.1
      ⟨e.depth, reaches_of_mem_listedInheritance hs hr (List.mem_cons_of_mem _ he)⟩⟩
  · rintro ⟨hn, hne, hreach⟩
    have hmem := mem_listedInheritance_of_reaches hs hr hmax hreach
    rw [List.map_cons, List.mem_cons, rootEntry, hs.node_id hr, or_iff_right hne] at hmem
    obtain ⟨e, he, heid⟩ := List.mem_map.1 hmem
    refine List.mem_map.2 ⟨e, he, ?_⟩
    have hstored := (hlineage.stored e he).1
    rw [heid, hn] at hstored
    exact (Option.some_inj.1 hstored).symm

/-- A type of a detour. -/
def typeNode (id : NodeId) : Node :=
  { id, name := id, qualifiedName := id, kind := .classType, file := ⟨"t.cs"⟩ }

/-- Six types with a short way from the first to the last, through `b`, and a longer one, through
`a` and `c`, which a walk takes first. -/
def detour : List Operation :=
  [.addNodes (["a", "b", "c", "d", "e", "r"].map typeNode),
   .addEdges ([("r", "a"), ("r", "b"), ("a", "c"), ("c", "d"), ("b", "d"), ("d", "e")].map fun e =>
     { id := e.1 ++ e.2, source := e.1, target := e.2, kind := .inherits })]

/-- With a depth of six a walk of the detour comes to its last type. -/
theorem run_inheritance_preorder_detour :
    (run detour).hasNode "r" = true ∧ ∃ i, (run detour).inheritance "r" .ancestors 6 = some i ∧
      (run detour).Lineage .targets "r" 6 i.entries ∧ typeNode "e" ∈ i.entries.map (·.node) := by
  have hroot : (run detour).hasNode "r" = true := by decide +kernel
  obtain ⟨i, hi, -, -, hlineage, hall⟩ := run_inheritance_preorder detour hroot .ancestors 6
  have hra : (run detour).Joins inheritanceKinds .targets "r" "a" := by decide +kernel
  have hac : (run detour).Joins inheritanceKinds .targets "a" "c" := by decide +kernel
  have hcd : (run detour).Joins inheritanceKinds .targets "c" "d" := by decide +kernel
  have hde : (run detour).Joins inheritanceKinds .targets "d" "e" := by decide +kernel
  refine ⟨hroot, i, hi, hlineage, (hall (by decide +kernel) (typeNode "e")).2 ⟨?_, by decide, ?_⟩⟩
  · decide +kernel
  · exact (((Relation.ReflTransGen.single hra).tail hac).tail hcd).tail hde

end Store

end CodeGraph

import CodeGraph.Proofs.Query.Tree
import Mathlib.Data.List.Sort

/-!
# The declarations directly inside one

A list of the declarations directly inside one has an entry for each containment edge, while a tree
of depth one meets each declaration once. Both are in source order, so they differ only where
several edges lead to one declaration.

* `Store.contents`: what is listed; whether one stands twice in it (`Store.nodup_contents_iff`).
* `Store.mem_heldBy_treeWalk`: what a tree shows inside its root.
* **`Store.run_children_agrees_iff`**: after any sequence of operations without containment of a
  declaration in itself, the list without repetitions is what the tree shows, and the list itself is
  exactly if no two edges lead to one declaration; `Store.doubled_children_repeats`: a list that
  counts one declaration twice.
-/

namespace CodeGraph

open Std

/-! ## Sorted lists without repetitions -/

theorem eq_of_pairwise_sourceKey {l m : List Node}
    (hl : l.Pairwise fun a b => sourceKey a < sourceKey b)
    (hm : m.Pairwise fun a b => sourceKey a < sourceKey b) (h : ∀ n, n ∈ l ↔ n ∈ m) : l = m := by
  have hirrefl : Std.Irrefl fun a b : Node => sourceKey a < sourceKey b :=
    ⟨fun a => lt_irrefl (sourceKey a)⟩
  have hantisymm : Std.Antisymm fun a b : Node => sourceKey a < sourceKey b :=
    ⟨fun a b hab hba => absurd hba hab.asymm⟩
  exact hl.eq_of_mem_iff hm h

theorem pairwise_dedup_sortBy_sourceOrder {l : List Node}
    (h : ∀ a ∈ l, ∀ b ∈ l, a.id = b.id → a = b) :
    (sortBy sourceOrder l).dedup.Pairwise fun a b => sourceKey a < sourceKey b := by
  have hle := (pairwise_sortBy sourceOrder l).sublist (List.dedup_sublist _)
  have hne : (sortBy sourceOrder l).dedup.Pairwise fun a b => a ≠ b := List.nodup_dedup _
  refine (hle.and hne).imp_of_mem fun {a b} ha hb => ?_
  rintro ⟨hle, hne⟩
  rw [List.mem_dedup, mem_sortBy] at ha hb
  rw [sourceOrder_eq, ← Ordering.ne_gt_iff_isLE] at hle
  exact (compare_le_iff_le.1 hle).lt_of_ne fun heq => hne (h a ha b hb (id_eq_of_sourceKey_eq heq))

namespace Store

variable {s : Store} {kind : Option NodeKind} {id : NodeId}

/-! ## What is listed -/

/-- The declarations of the kind asked for that are directly inside one, as they are found. -/
def contents (s : Store) (kind : Option NodeKind) (id : NodeId) : List Node :=
  ((s.contained id).filterMap s.node?).filter fun n => kind.all (n.kind == ·)

/-- No two containment edges lead from a declaration to the same one of the kind asked for. -/
def HoldsOnce (s : Store) (kind : Option NodeKind) (id : NodeId) : Prop :=
  ∀ e ∈ s.allEdges, ∀ e' ∈ s.allEdges, e.kind = .contains → e'.kind = .contains →
    e.source = id → e'.source = id → e.target = e'.target → s.Encloses kind id e.target → e = e'

theorem mem_contents (hs : s.Coherent) (hid : s.hasNode id = true) {n : Node} :
    n ∈ s.contents kind id ↔ s.node? n.id = some n ∧ s.Encloses kind id n.id := by
  simp only [contents, List.mem_filter, List.mem_filterMap, mem_contained hs, Option.all_eq_true,
    beq_iff_eq]
  constructor
  · rintro ⟨⟨a, hida, hn⟩, hkind⟩
    obtain rfl := hs.node_id hn
    exact ⟨hn, ⟨hid, hasNode_iff.2 ⟨n, hn⟩, hida⟩, n, hn, hkind⟩
  · rintro ⟨hn, ⟨-, -, hida⟩, m, hm, hkind⟩
    rw [hn, Option.some_inj] at hm
    exact ⟨⟨n.id, hida, hn⟩, hm ▸ hkind⟩

/-- The containment edges that leave a declaration. -/
def holdingEdges (s : Store) (id : NodeId) : List Edge :=
  (s.outgoingEdges id).filter (·.kind == .contains)

theorem mem_holdingEdges (hs : s.Coherent) {e : Edge} :
    e ∈ s.holdingEdges id ↔ e ∈ s.allEdges ∧ e.source = id ∧ e.kind = .contains := by
  simp only [holdingEdges, hs.outgoingEdges_eq, List.mem_filter, beq_iff_eq, and_assoc]

theorem contents_eq_filterMap : s.contents kind id = (s.holdingEdges id).filterMap fun e =>
    (s.node? e.target).filter fun n => kind.all (n.kind == ·) := by
  rw [contents, contained, List.filterMap_map, List.filter_filterMap]
  rfl

theorem length_contents_le (hs : s.Coherent) : (s.contents kind id).length ≤ s.edgeCount := by
  rw [contents_eq_filterMap, ← length_allEdges]
  refine (List.length_filterMap_le _ _).trans ((List.length_filter_le _ _).trans ?_)
  rw [hs.outgoingEdges_eq]
  exact List.length_filter_le _ _

theorem lists_iff (hs : s.Coherent) {e : Edge} (he : e ∈ s.holdingEdges id)
    (hid : s.hasNode id = true) {n : Node} :
    (s.node? e.target).filter (fun n => kind.all (n.kind == ·)) = some n ↔
      s.node? n.id = some n ∧ e.target = n.id ∧ s.Encloses kind id e.target := by
  obtain ⟨hmem, rfl, hcontains⟩ := (mem_holdingEdges hs).1 he
  simp only [Option.filter_eq_some_iff, Option.all_eq_true, beq_iff_eq]
  constructor
  · rintro ⟨hn, hkind⟩
    have htarget := hs.node_id hn
    exact ⟨htarget ▸ hn, htarget.symm, ⟨hid, hasNode_iff.2 ⟨n, hn⟩, e, hmem, by simp [hcontains],
      rfl, rfl⟩, n, hn, hkind⟩
  · rintro ⟨hn, htarget, -, m, hm, hkind⟩
    rw [htarget, hn, Option.some_inj] at hm
    exact ⟨htarget ▸ hn, hm ▸ hkind⟩

theorem nodup_contents_iff (hs : s.Coherent) (hid : s.hasNode id = true) :
    (s.contents kind id).Nodup ↔ s.HoldsOnce kind id := by
  rw [contents_eq_filterMap, List.Nodup, List.pairwise_filterMap]
  constructor
  · intro hpairwise e he e' he' hkind hkind' hsource hsource' htarget hencloses
    by_contra hne
    have hmem := (mem_holdingEdges hs).2 ⟨he, hsource, hkind⟩
    have hmem' := (mem_holdingEdges hs).2 ⟨he', hsource', hkind'⟩
    obtain ⟨n, hn, -⟩ := hencloses.2
    have hname := hs.node_id hn
    have hlists := (lists_iff hs hmem hid).2 ⟨hname ▸ hn, hname.symm, hencloses⟩
    have hlists' := (lists_iff hs hmem' hid).2 ⟨hname ▸ hn, htarget ▸ hname.symm, htarget ▸ hencloses⟩
    have hsymm : Std.Symm fun e e' : Edge => ∀ n,
        (s.node? e.target).filter (fun n => kind.all (n.kind == ·)) = some n → ∀ n',
        (s.node? e'.target).filter (fun n => kind.all (n.kind == ·)) = some n' → n ≠ n' :=
      ⟨fun _ _ h n hn n' hn' => (h n' hn' n hn).symm⟩
    exact hpairwise.forall hmem hmem' hne n hlists n hlists' rfl
  · intro honce
    have hnd : (s.holdingEdges id).Nodup := by
      rw [holdingEdges, hs.outgoingEdges_eq]
      exact ((nodup_map_id_allEdges hs).of_map.filter _).filter _
    refine hnd.pairwise_of_forall_ne fun e he e' he' hne n hn n' hn' heq => hne ?_
    obtain ⟨-, htarget, hencloses⟩ := (lists_iff hs he hid).1 hn
    obtain ⟨-, htarget', -⟩ := (lists_iff hs he' hid).1 hn'
    obtain ⟨hmem, hsource, hkind⟩ := (mem_holdingEdges hs).1 he
    obtain ⟨hmem', hsource', hkind'⟩ := (mem_holdingEdges hs).1 he'
    exact honce e hmem e' hmem' hkind hkind' hsource hsource'
      (htarget.trans (heq ▸ htarget'.symm)) hencloses

theorem children_eq (hs : s.Coherent) (hid : s.hasNode id = true) (kind : Option NodeKind)
    {limit : Nat} (hlimit : s.edgeCount ≤ limit) :
    s.children id kind limit = some
      { items := sortBy sourceOrder (s.contents kind id)
        total := (s.contents kind id).length
        truncated := false } := by
  have hlen : (sortBy sourceOrder (s.contents kind id)).length = (s.contents kind id).length :=
    (perm_sortBy _ _).length_eq
  have hle : (s.contents kind id).length ≤ limit := (length_contents_le hs).trans hlimit
  refine (if_pos hid).trans (congrArg some ?_)
  change Page.ofList (sortBy sourceOrder (s.contents kind id)) limit = _
  rw [Page.ofList, List.take_of_length_le (hlen.trans_le hle), hlen]
  simpa using hle

/-! ## What a tree shows inside its root -/

section Finished

variable {maxDepth : Nat} {done : List (NodeId × Nat)} {w : TreeWalk}
  (h : TreeWalk.Charts s kind maxDepth (s.treeRoots (some id)) done w) (hq : w.queue = [])

include h hq in
theorem mem_heldBy_treeWalk (hs : s.Coherent) (hid : s.hasNode id = true) (hdepth : 0 < maxDepth)
    {n : Node} : n ∈ heldBy w.inside id ↔
      s.node? n.id = some n ∧ s.Encloses kind id n.id ∧ n.id ≠ id := by
  have hroots : ∀ a, a ∈ (s.treeRoots (some id)).map Node.id ↔ a = id := fun a =>
    mem_map_id_treeRoots hs (by simpa using hid)
  obtain ⟨r, hr, hrid⟩ := List.mem_map.1 ((hroots id).2 rfl)
  constructor
  · intro hn
    obtain ⟨hnode, hencloses⟩ := h.held id n hn
    refine ⟨hnode, hencloses, fun heq => ?_⟩
    exact h.not_holdingId_root hr ⟨n, hn, heq.trans hrid.symm⟩
  · rintro ⟨hn, hencloses, hne⟩
    have hfront := h.frontier
    rw [hq] at hfront
    have hdist : DistanceFrom (s.Encloses kind) (· ∈ (s.treeRoots (some id)).map Node.id) n.id 1 := by
      refine ⟨⟨id, (hroots id).2 rfl, id, rfl, hencloses⟩, fun a j ha haj => ?_⟩
      refine Nat.pos_of_ne_zero ?_
      rintro rfl
      exact hne (haj.symm.trans ((hroots a).1 ha))
    obtain ⟨a, ha, m, hm, hmid⟩ := (h.mem_done_succ hq).1 (hfront.mem_iff.2 ⟨hdist, hdepth⟩)
    obtain ⟨r', hr', rfl⟩ := (h.mem_done_zero hq).1 ha
    rw [(hroots r'.id).1 (List.mem_map_of_mem hr')] at hm
    have hnode := (h.held id m hm).1
    rw [hmid, hn, Option.some_inj] at hnode
    exact hnode ▸ hm

end Finished

theorem tree_children (hs : s.Coherent) (hid : s.hasNode id = true) (kind : Option NodeKind)
    {maxDepth : Nat} (hdepth : 0 < maxDepth) :
    ∃ t o, s.tree (some id) maxDepth kind = some t ∧ t.roots = [o] ∧
      (o.children.map Outline.node).Pairwise (fun a b => sourceKey a < sourceKey b) ∧
      ∀ n, n ∈ o.children.map Outline.node ↔
        s.node? n.id = some n ∧ s.Encloses kind id n.id ∧ n.id ≠ id := by
  obtain ⟨r, hr⟩ := hasNode_iff.1 hid
  obtain ⟨done, h, hq⟩ := charts_treeWalk hs (some id) maxDepth kind
  have hroots : s.treeRoots (some id) = [r] := by
    rw [treeRoots, rootNodes, hr, Option.toList_some, sortBy, List.mergeSort_singleton]
  have htree : (s.pictured (some id) maxDepth (s.treeWalk (some id) maxDepth kind)).roots =
      [Outline.grow (s.treeWalk (some id) maxDepth kind).inside s.nodeCount r] := by
    rw [pictured, hroots, List.map_singleton]
  have hpart : (Outline.grow (s.treeWalk (some id) maxDepth kind).inside s.nodeCount r, 0) ∈
      (s.pictured (some id) maxDepth (s.treeWalk (some id) maxDepth kind)).parts := by
    refine (mem_parts_pictured h hq hs).2 ⟨r, ?_, ((hs.node_id hr).symm ▸ hr), rfl⟩
    exact (h.mem_done_zero hq).2 ⟨r, by rw [hroots]; exact List.mem_singleton_self r, rfl⟩
  have hchildren := children_of_mem_parts h hq hs hpart
  rw [Outline.node_grow, hs.node_id hr] at hchildren
  refine ⟨_, _, tree_eq hs (by simpa using hid) maxDepth kind, htree, ?_, fun n => ?_⟩
  · rw [hchildren]
    exact pairwise_sortBy_sourceOrder (h.parted.once _)
  · rw [hchildren, mem_sortBy, mem_heldBy_treeWalk h hq hs hid hdepth]

/-- Without containment of a declaration in itself a tree shows inside its root what is listed,
without repetitions. -/
theorem tree_children_eq_dedup (hs : s.Coherent)
    (hloop : ∀ e ∈ s.allEdges, e.kind = .contains → e.source ≠ e.target)
    (hid : s.hasNode id = true) (kind : Option NodeKind) {maxDepth : Nat} (hdepth : 0 < maxDepth) :
    ∃ t o, s.tree (some id) maxDepth kind = some t ∧ t.roots = [o] ∧
      (sortBy sourceOrder (s.contents kind id)).dedup = o.children.map Outline.node := by
  obtain ⟨t, o, ht, hroots, hsorted, hmem⟩ := tree_children hs hid kind hdepth
  have hne : ∀ n, s.Encloses kind id n → n ≠ id := by
    rintro n ⟨⟨-, -, e, he, hkind, rfl, rfl⟩, -⟩
    exact (hloop e he (List.mem_singleton.1 hkind)).symm
  refine ⟨t, o, ht, hroots, eq_of_pairwise_sourceKey (pairwise_dedup_sortBy_sourceOrder ?_) hsorted
    fun n => ?_⟩
  · intro a ha b hb hab
    have hnode := ((mem_contents hs hid).1 ha).1
    rw [hab, ((mem_contents hs hid).1 hb).1, Option.some_inj] at hnode
    exact hnode.symm
  · rw [List.mem_dedup, mem_sortBy, mem_contents hs hid, hmem]
    exact and_congr_right fun _ => (and_iff_left_of_imp (hne n.id)).symm

/-- **After any sequence of operations without containment of a declaration in itself, the list of
the declarations directly inside one, without repetitions, is what a tree of depth one shows inside
its root**, in the same order. The list itself is, and counts as many, exactly if no two containment
edges lead to one of them. -/
theorem run_children_agrees_iff (ops : List Operation)
    (hloop : ∀ e ∈ (run ops).allEdges, e.kind = .contains → e.source ≠ e.target) {id : NodeId}
    (hid : (run ops).hasNode id = true) (kind : Option NodeKind) {limit : Nat}
    (hlimit : (run ops).edgeCount ≤ limit) :
    ∃ page t o, (run ops).children id kind limit = some page ∧ page.truncated = false ∧
      (run ops).tree (some id) 1 kind = some t ∧ t.roots = [o] ∧
      page.items.dedup = o.children.map Outline.node ∧
      (page.items = o.children.map Outline.node ↔ (run ops).HoldsOnce kind id) ∧
      (page.total = o.children.length ↔ (run ops).HoldsOnce kind id) := by
  have hs := coherent_run ops
  obtain ⟨t, o, ht, hroots, hdedup⟩ := tree_children_eq_dedup hs hloop hid kind Nat.one_pos
  have hperm := perm_sortBy sourceOrder ((run ops).contents kind id)
  refine ⟨_, t, o, children_eq hs hid kind hlimit, rfl, ht, hroots, hdedup, ?_, ?_⟩
  · rw [← hdedup, eq_comm, List.dedup_eq_self, hperm.nodup_iff, nodup_contents_iff hs hid]
  · have hlen := congrArg List.length hdedup
    rw [List.length_map] at hlen
    rw [← nodup_contents_iff hs hid, ← hperm.nodup_iff, ← hperm.length_eq, ← hlen,
      ← List.dedup_eq_self]
    refine ⟨fun heq => (List.dedup_sublist _).eq_of_length heq.symm, fun heq => ?_⟩
    rw [heq]

/-- A class that contains another by two edges, and a method by one. -/
def doubled : List Operation :=
  [.addNodes [boxNode .classType "a", boxNode .classType "b", boxNode .method "m"],
   .addEdges ([("ab", "b"), ("abb", "b"), ("am", "m")].map fun e =>
     { id := e.1, source := "a", target := e.2, kind := .contains })]

/-- Only one edge leads to the method. -/
theorem run_children_agrees_iff_doubled :
    (∀ e ∈ (run doubled).allEdges, e.kind = .contains → e.source ≠ e.target) ∧
    (run doubled).hasNode "a" = true ∧ (run doubled).edgeCount ≤ 3 ∧
    ∃ page t o, (run doubled).children "a" (some .method) 3 = some page ∧
      (run doubled).tree (some "a") 1 (some .method) = some t ∧ t.roots = [o] ∧
      page.items = [boxNode .method "m"] ∧ page.items = o.children.map Outline.node ∧
      (run doubled).HoldsOnce (some .method) "a" := by
  have hloop : ∀ e ∈ (run doubled).allEdges, e.kind = .contains → e.source ≠ e.target := by
    decide +kernel
  have hid : (run doubled).hasNode "a" = true := by decide +kernel
  have hlimit : (run doubled).edgeCount ≤ 3 := by decide +kernel
  have hlist : (run doubled).children "a" (some .method) 3 =
      some ⟨[boxNode .method "m"], 1, false⟩ := by decide +kernel
  obtain ⟨page, t, o, hpage, -, ht, ho, hdedup, hitems, -⟩ :=
    run_children_agrees_iff doubled hloop hid (some .method) hlimit
  rw [hlist] at hpage
  cases hpage
  exact ⟨hloop, hid, hlimit, _, t, o, hlist, ht, ho, rfl, hdedup, hitems.1 hdedup⟩

/-- The class inside is listed for each of its two edges, and stands once in the tree. -/
theorem doubled_children_repeats :
    (∀ e ∈ (run doubled).allEdges, e.kind = .contains → e.source ≠ e.target) ∧
    ∃ page t o, (run doubled).children "a" none 3 = some page ∧
      (run doubled).tree (some "a") 1 none = some t ∧ t.roots = [o] ∧
      o.children.map Outline.node = [boxNode .classType "b", boxNode .method "m"] ∧
      page.items = [boxNode .classType "b", boxNode .classType "b", boxNode .method "m"] ∧
      page.total = 3 := by
  have hloop : ∀ e ∈ (run doubled).allEdges, e.kind = .contains → e.source ≠ e.target := by
    decide +kernel
  have hid : (run doubled).hasNode "a" = true := by decide +kernel
  have hlimit : (run doubled).edgeCount ≤ 3 := by decide +kernel
  have hcontents : (run doubled).contents none "a" =
      [boxNode .classType "b", boxNode .classType "b", boxNode .method "m"] := by
    decide +kernel
  have hsorted : sortBy sourceOrder ((run doubled).contents none "a") =
      [boxNode .classType "b", boxNode .classType "b", boxNode .method "m"] := by
    rw [hcontents]
    exact List.mergeSort_of_pairwise (by decide +kernel)
  obtain ⟨t, o, ht, hroots, hshown⟩ :=
    tree_children_eq_dedup (coherent_run doubled) hloop hid none Nat.one_pos
  refine ⟨hloop, _, t, o, children_eq (coherent_run doubled) hid none hlimit, ht, hroots, ?_,
    hsorted, congrArg List.length hcontents⟩
  rw [← hshown, hsorted]
  decide +kernel

end Store

end CodeGraph

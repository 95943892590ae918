import CodeGraph.Proofs.Query.Assembly
import CodeGraph.Proofs.Query.Containment
import CodeGraph.Proofs.Query.Roots

/-!
# Containment walks

A containment walk is a breadth-first search from all roots at once that notes, with each
declaration it is done with, those it found inside. So what it has met are the roots and, turn after
turn, what was noted (`TreeWalk.Charts.order`): as nothing is met twice, nothing is noted twice, and
the level at which a declaration was met is that of its place below the roots.

* `Store.Encloses`: the relation that a walk explores.
* `TreeWalk.foldl_meet`: what a walk takes up in a turn.
* `TreeWalk.Charts`: a walk under way, kept by one turn (`Charts.stop`, `Charts.expand`) and so by a
  run (`Charts.run`).
* `TreeWalk.Charts.parted`, `TreeWalk.Charts.mem_done_iff`: what a finished walk has noted.
* `TreeWalk.Charts.assemble_eq_grow`: what is assembled from that.
-/

namespace CodeGraph

open Std

namespace Store

variable {s : Store} {kind : Option NodeKind}

/-- A containment edge leads from one declaration to another that is of the kind asked for, if one
is. -/
def Encloses (s : Store) (kind : Option NodeKind) (a b : NodeId) : Prop :=
  s.Joins [.contains] .targets a b ∧ ∃ n, s.node? b = some n ∧ ∀ k ∈ kind, n.kind = k

/-- The identifiers of declarations of the kind asked for. -/
def admitted (s : Store) (kind : Option NodeKind) (ids : List NodeId) : List (NodeId × EdgeKind) :=
  (ids.filter fun id => (s.node? id).any fun n => kind.all (n.kind == ·)).map (·, .contains)

theorem mem_admitted {ids : List NodeId} {id : NodeId} :
    id ∈ (s.admitted kind ids).map (·.1) ↔
      id ∈ ids ∧ ∃ n, s.node? id = some n ∧ ∀ k ∈ kind, n.kind = k := by
  simp [admitted, Option.any_eq_true, Option.all_eq_true]

theorem hasNode_of_mem_admitted {ids : List NodeId} {id : NodeId}
    (h : id ∈ (s.admitted kind ids).map (·.1)) : s.hasNode id = true := by
  obtain ⟨-, n, hn, -⟩ := mem_admitted.1 h
  exact hasNode_iff.2 ⟨n, hn⟩

/-- The declarations that a walk takes up are those that it meets for the first time. -/
theorem map_id_unmet_admitted (hs : s.Coherent) (visited : ExtTreeSet NodeId) (ids : List NodeId) :
    (s.unmet visited (s.admitted kind ids)).map (·.id) =
      (pickFresh visited (s.admitted kind ids)).2.map (·.1) := by
  rw [map_id_unmet _ _ hs, List.filter_eq_self]
  exact fun id hid => hasNode_of_mem_admitted ((mem_pickFresh _ _ id).1 hid).1

theorem mem_unmet_admitted (hs : s.Coherent) {a : NodeId} (ha : s.hasNode a = true)
    (visited : ExtTreeSet NodeId) (b : NodeId) :
    b ∈ (s.unmet visited (s.admitted kind (s.contained a))).map (·.id) ↔
      s.Encloses kind a b ∧ b ∉ visited := by
  rw [map_id_unmet_admitted hs, mem_pickFresh, mem_admitted, mem_contained hs]
  refine and_congr_left fun _ => ⟨?_, ?_⟩
  · rintro ⟨hab, n, hn, hkind⟩
    exact ⟨⟨ha, hasNode_iff.2 ⟨n, hn⟩, hab⟩, n, hn, hkind⟩
  · rintro ⟨hab, hb⟩
    exact ⟨hab.2.2, hb⟩

end Store

namespace TreeWalk

variable {s : Store} {kind : Option NodeKind}

theorem foldl_meet (hs : s.Coherent) (parent : NodeId) (depth : Nat) (ids : List NodeId)
    (w : TreeWalk) :
    ids.foldl (meet s kind parent depth) w =
      { w with
        visited := (pickFresh w.visited (s.admitted kind ids)).1
        queue := w.queue ++ (s.unmet w.visited (s.admitted kind ids)).map fun n => (n.id, depth)
        inside :=
          (s.unmet w.visited (s.admitted kind ids)).foldl (addInside · parent ·) w.inside } := by
  induction ids generalizing w with
  | nil => simp [Store.admitted, Store.unmet, pickFresh]
  | cons id ids ih =>
    rw [List.foldl_cons, ih]
    cases hid : s.node? id with
    | none => simp [meet, Store.admitted, hid]
    | some n =>
      by_cases hkind : kind.all (n.kind == ·) = true
      · have hcons : s.admitted kind (id :: ids) = (id, .contains) :: s.admitted kind ids := by
          simp [Store.admitted, hid, hkind]
        rw [hcons]
        by_cases hseen : id ∈ w.visited
        · rw [Store.unmet_cons_of_mem _ _ hseen]
          simp [meet, hid, hseen, pickFresh]
        · rw [Store.unmet_cons_of_notMem _ _ hseen]
          simp [meet, hid, hkind, hseen, pickFresh, hs.node_id hid]
      · simp [meet, Store.admitted, hid, hkind]

/-! ## One turn of a walk -/

/-- What holds of a walk from roots that has done with some declarations. -/
structure Charts (s : Store) (kind : Option NodeKind) (maxDepth : Nat) (roots : List Node)
    (done : List (NodeId × Nat)) (w : TreeWalk) : Prop where
  stored : ∀ n ∈ roots, s.node? n.id = some n
  frontier : FrontierFrom (s.Encloses kind) (· ∈ roots.map Node.id) maxDepth done w.queue
  visited : ∀ id, id ∈ w.visited ↔ id ∈ (done ++ w.queue).map (·.1)
  /-- Met are the roots, and then what was noted with what is done, one level deeper. -/
  order : done ++ w.queue = roots.map (fun n => (n.id, 0)) ++
    done.flatMap fun p => (heldBy w.inside p.1).map fun n => (n.id, p.2 + 1)
  /-- Nothing is noted with what is not done. -/
  later : ∀ a, a ∉ done.map (·.1) → heldBy w.inside a = []
  held : ∀ a, ∀ n ∈ heldBy w.inside a, s.node? n.id = some n ∧ s.Encloses kind a n.id
  reached : w.depthReached = (done.map (·.2)).foldl max 0

namespace Charts

variable {maxDepth : Nat} {roots : List Node} {done : List (NodeId × Nat)} {w : TreeWalk}
  {a : NodeId} {l : Nat} {queue : List (NodeId × Nat)}

theorem hasNode_of_mem (h : Charts s kind maxDepth roots done w) {p : NodeId × Nat}
    (hp : p ∈ done ++ w.queue) : s.hasNode p.1 = true := by
  rw [h.order] at hp
  rcases List.mem_append.1 hp with hp | hp
  · obtain ⟨n, hn, rfl⟩ := List.mem_map.1 hp
    exact Store.hasNode_iff.2 ⟨n, h.stored n hn⟩
  · obtain ⟨q, -, hp⟩ := List.mem_flatMap.1 hp
    obtain ⟨n, hn, rfl⟩ := List.mem_map.1 hp
    exact Store.hasNode_iff.2 ⟨n, (h.held q.1 n hn).1⟩

theorem length_le (hs : s.Coherent) (h : Charts s kind maxDepth roots done w) :
    (done ++ w.queue).length ≤ s.nodeCount := by
  have hle := Store.length_le_nodeCount hs h.frontier.once fun id hid => by
    obtain ⟨p, hp, rfl⟩ := List.mem_map.1 hid
    exact h.hasNode_of_mem hp
  rwa [List.length_map] at hle

theorem size_visited (h : Charts s kind maxDepth roots done w) :
    w.visited.size = (done ++ w.queue).length := by
  have hnd : w.visited.toList.Nodup := by
    refine w.visited.distinct_toList.imp ?_
    rintro a b hab rfl
    exact hab ReflCmp.compare_self
  have hperm : w.visited.toList.Perm ((done ++ w.queue).map (·.1)) :=
    (List.perm_ext_iff_of_nodup hnd h.frontier.once).2 fun id => by
      rw [ExtTreeSet.mem_toList, h.visited]
  rw [← ExtTreeSet.length_toList, hperm.length_eq, List.length_map]

theorem heldBy_queued (h : Charts s kind maxDepth roots done w) (hq : w.queue = (a, l) :: queue) :
    heldBy w.inside a = [] ∧ ∀ p ∈ done, p.1 ≠ a := by
  have honce := h.frontier.once
  rw [hq, List.map_append, List.map_cons] at honce
  have hne := fun id hid => (List.nodup_append.1 honce).2.2 id hid a List.mem_cons_self
  exact ⟨h.later a fun ha => hne a ha rfl, fun p hp => hne p.1 (List.mem_map_of_mem hp)⟩

theorem foldl_max_concat (done : List (NodeId × Nat)) (p : NodeId × Nat) :
    ((done ++ [p]).map (·.2)).foldl max 0 = max ((done.map (·.2)).foldl max 0) p.2 := by
  rw [List.map_append, List.foldl_append]
  rfl

theorem stop (h : Charts s kind maxDepth roots done w) (hq : w.queue = (a, l) :: queue)
    (hl : ¬ l < maxDepth) :
    Charts s kind maxDepth roots (done ++ [(a, l)])
      { w with queue := queue, depthReached := max w.depthReached l } := by
  have happ : done ++ [(a, l)] ++ queue = done ++ w.queue := by simp [hq]
  constructor
  case stored => exact h.stored
  case frontier => exact (hq ▸ h.frontier).stop hl
  case visited =>
    rw [happ]
    exact h.visited
  case order =>
    rw [happ, h.order, List.flatMap_append]
    simp [(h.heldBy_queued hq).1]
  case later =>
    intro b hb
    refine h.later b fun hb' => hb ?_
    rw [List.map_append]
    exact List.mem_append_left _ hb'
  case held => exact h.held
  case reached => rw [foldl_max_concat, h.reached]

/-- Above it, a walk notes what is directly inside and was not met. -/
theorem expand (hs : s.Coherent) (h : Charts s kind maxDepth roots done w)
    (hq : w.queue = (a, l) :: queue) (hl : l < maxDepth) :
    Charts s kind maxDepth roots (done ++ [(a, l)])
      ((s.contained a).foldl (meet s kind a (l + 1))
        { w with queue := queue, depthReached := max w.depthReached l }) := by
  have ha : s.hasNode a = true := h.hasNode_of_mem (p := (a, l)) (by simp [hq])
  obtain ⟨hnone, hdone⟩ := h.heldBy_queued hq
  rw [foldl_meet hs]
  dsimp only
  have happ : ∀ new, done ++ [(a, l)] ++ (queue ++ new) = done ++ w.queue ++ new := by simp [hq]
  have hfresh : ∀ b, b ∈ (s.unmet w.visited (s.admitted kind (s.contained a))).map (·.id) ↔
      s.Encloses kind a b ∧ b ∉ w.visited := Store.mem_unmet_admitted hs ha w.visited
  constructor
  case stored => exact h.stored
  case frontier =>
    have hnd : ((s.unmet w.visited (s.admitted kind (s.contained a))).map (·.id)).Nodup := by
      rw [Store.map_id_unmet_admitted hs]
      exact nodup_pickFresh _ _
    have hnext := (hq ▸ h.frontier).expand hl hnd fun b => by rw [hfresh, h.visited, hq]
    rwa [List.map_map] at hnext
  case visited =>
    intro id
    rw [happ, List.map_append, List.map_map, List.mem_append, mem_pickFresh_visited, h.visited,
      ← Store.map_id_unmet_admitted hs]
    rfl
  case order =>
    -- nothing is added to what was noted with the declarations done before
    have hsame : ∀ p ∈ done, (heldBy ((s.unmet w.visited (s.admitted kind (s.contained a))).foldl
        (addInside · a ·) w.inside) p.1).map (fun n => (n.id, p.2 + 1)) =
          (heldBy w.inside p.1).map fun n => (n.id, p.2 + 1) := by
      intro p hp
      rw [heldBy_foldl_addInside, if_neg (hdone p hp).symm, List.append_nil]
    rw [happ, h.order, List.flatMap_append, List.flatMap_congr hsame, List.flatMap_singleton,
      heldBy_foldl_addInside, if_pos rfl, hnone, List.nil_append, List.append_assoc]
  case later =>
    intro b hb
    rw [List.map_append, List.mem_append, not_or] at hb
    have hne : a ≠ b := fun heq => hb.2 (List.mem_singleton.2 heq.symm)
    rw [heldBy_foldl_addInside, if_neg hne, List.append_nil, h.later b hb.1]
  case held =>
    intro b n hn
    rw [heldBy_foldl_addInside, List.mem_append] at hn
    rcases hn with hn | hn
    · exact h.held b n hn
    · split at hn
      case isTrue hab =>
        obtain ⟨p, -, hp⟩ := List.mem_filterMap.1 hn
        refine ⟨by rw [hs.node_id hp, hp], hab ▸ ((hfresh n.id).1 (List.mem_map_of_mem hn)).1⟩
      case isFalse => cases hn
  case reached => rw [foldl_max_concat, h.reached]

/-- A run ends with an empty queue: no declaration is queued twice. -/
theorem run (hs : s.Coherent) (fuel : Nat)
    (h : Charts s kind maxDepth roots done w) (hfuel : s.nodeCount < fuel + done.length) :
    ∃ done', Charts s kind maxDepth roots done' (run s maxDepth kind fuel w) ∧
      (run s maxDepth kind fuel w).queue = [] := by
  -- every turn adds a declaration to those done with, and they are all distinct
  induction fuel generalizing done w with
  | zero =>
    have hlen := h.length_le hs
    rw [List.length_append] at hlen
    omega
  | succ fuel ih =>
    rw [TreeWalk.run]
    cases hq : w.queue with
    | nil => exact ⟨done, h, hq⟩
    | cons p queue =>
      obtain ⟨a, l⟩ := p
      have hfuel' : s.nodeCount < fuel + (done ++ [(a, l)]).length := by
        rw [List.length_append, List.length_singleton]
        omega
      dsimp only
      split
      case isTrue hl => exact ih (h.stop hq (Nat.not_lt.2 hl)) hfuel'
      case isFalse hl => exact ih (h.expand hs hq (Nat.lt_of_not_le hl)) hfuel'

/-! ## A finished walk -/

variable (h : Charts s kind maxDepth roots done w)
include h

theorem nodup_order : (roots.map (·.id) ++
    done.flatMap fun p => (heldBy w.inside p.1).map (·.id)).Nodup := by
  have honce := h.frontier.once
  rw [h.order, List.map_append, List.map_map, List.map_flatMap] at honce
  simpa only [List.map_map, Function.comp_def] using honce

theorem mem_done_of_holdingId {b : NodeId} (hab : HoldingId w.inside a b) :
    a ∈ done.map (·.1) := by
  obtain ⟨n, hn, -⟩ := hab
  by_contra hnot
  rw [h.later a hnot] at hn
  cases hn

theorem parted : Parted w.inside := by
  have hnd := (List.nodup_append.1 h.nodup_order).2.1
  constructor
  case once =>
    intro a
    by_cases ha : a ∈ done.map (·.1)
    · obtain ⟨p, hp, rfl⟩ := List.mem_map.1 ha
      exact (List.nodup_flatMap.1 hnd).1 p hp
    · rw [h.later a ha]
      exact List.nodup_nil
  case single =>
    intro a a' b hab hab'
    obtain ⟨p, hp, rfl⟩ := List.mem_map.1 (h.mem_done_of_holdingId hab)
    obtain ⟨p', hp', rfl⟩ := List.mem_map.1 (h.mem_done_of_holdingId hab')
    exact congrArg Prod.fst
      (eq_of_mem_flatMap hnd hp hp' (List.mem_map.2 hab) (List.mem_map.2 hab'))

theorem not_holdingId_root {r : Node} (hr : r ∈ roots) : ¬ HoldingId w.inside a r.id := by
  intro har
  obtain ⟨p, hp, rfl⟩ := List.mem_map.1 (h.mem_done_of_holdingId har)
  refine (List.nodup_append.1 h.nodup_order).2.2 r.id (List.mem_map_of_mem hr) r.id ?_ rfl
  exact List.mem_flatMap.2 ⟨p, hp, List.mem_map.2 har⟩

theorem apart_roots : Apart w.inside roots :=
  Apart.of_not_holdingId (List.nodup_append.1 h.nodup_order).1 fun _ hr _ =>
    h.not_holdingId_root hr

theorem order_finished (hq : w.queue = []) : done = roots.map (fun n => (n.id, 0)) ++
    done.flatMap fun p => (heldBy w.inside p.1).map fun n => (n.id, p.2 + 1) := by
  have horder := h.order
  rwa [hq, List.append_nil] at horder

theorem mem_done_zero (hq : w.queue = []) {id : NodeId} :
    (id, 0) ∈ done ↔ ∃ r ∈ roots, r.id = id := by
  rw [h.order_finished hq, List.mem_append]
  simp

theorem mem_done_succ (hq : w.queue = []) {id : NodeId} {k : Nat} :
    (id, k + 1) ∈ done ↔ ∃ a, (a, k) ∈ done ∧ HoldingId w.inside a id := by
  conv_lhs => rw [h.order_finished hq]
  simp only [List.mem_append, List.mem_flatMap, List.mem_map, HoldingId]
  constructor
  · rintro (⟨r, -, hid⟩ | ⟨p, hp, n, hn, hid⟩)
    · cases hid
    · cases hid
      exact ⟨p.1, hp, n, hn, rfl⟩
  · rintro ⟨a, ha, n, hn, rfl⟩
    exact .inr ⟨(a, k), ha, n, hn, rfl⟩

/-- A finished walk has met a declaration where walks through what was noted lead to it. -/
theorem mem_done_iff (hs : s.Coherent)
    (hq : w.queue = []) {n : Node} {k : Nat} :
    (n.id, k) ∈ done ∧ s.node? n.id = some n ↔
      ∃ r ∈ roots, StepsTo (Holding w.inside) k r n := by
  induction k generalizing n with
  | zero =>
    rw [h.mem_done_zero hq]
    constructor
    · rintro ⟨⟨r, hr, hid⟩, hn⟩
      have hnode := h.stored r hr
      rw [hid, hn] at hnode
      exact ⟨r, hr, (Option.some_inj.1 hnode).symm⟩
    · rintro ⟨r, hr, hrn⟩
      obtain rfl : r = n := hrn
      exact ⟨⟨r, hr, rfl⟩, h.stored r hr⟩
  | succ k ih =>
    rw [h.mem_done_succ hq]
    constructor
    · rintro ⟨⟨a, ha, c, hc, hid⟩, hn⟩
      have hnode := (h.held a c hc).1
      rw [hid, hn] at hnode
      obtain rfl := Option.some_inj.1 hnode
      obtain ⟨m, hm⟩ := Store.hasNode_iff.1 (h.hasNode_of_mem (List.mem_append_left _ ha))
      obtain rfl := hs.node_id hm
      obtain ⟨r, hr, hrm⟩ := ih.1 ⟨ha, hm⟩
      exact ⟨r, hr, m, hrm, hc⟩
    · rintro ⟨r, hr, m, hrm, hmn⟩
      exact ⟨⟨m.id, (ih.2 ⟨r, hr, hrm⟩).1, hmn.ids⟩, (h.held m.id n hmn).1⟩

theorem level_lt (hs : s.Coherent)
    (hq : w.queue = []) (ha : (a, l) ∈ done) : l < s.nodeCount := by
  have hle := h.length_le hs
  rw [hq, List.append_nil] at hle
  have hlt : l < (done.map (·.2)).length := by
    -- what is met one level down was noted with something one level up
    refine Store.lt_length_of_level (fun k hk => ?_) (List.mem_map_of_mem ha)
    obtain ⟨⟨b, k⟩, hb, rfl⟩ := List.mem_map.1 hk
    obtain ⟨c, hc, -⟩ := (h.mem_done_succ hq).1 hb
    exact List.mem_map_of_mem hc
  rw [List.length_map] at hlt
  omega

/-- From what a finished walk has noted the outlines of the roots are assembled as they grow. -/
theorem assemble_eq_grow (hs : s.Coherent) (hq : w.queue = []) :
    assemble roots w.inside = roots.map (Outline.grow w.inside s.nodeCount) :=
  h.parted.assemble_eq_grow h.apart_roots.once (fun _ hr _ => h.not_holdingId_root hr)
    fun r hr _ _ hrb => h.level_lt hs hq ((h.mem_done_iff hs hq).2 ⟨r, hr, hrb⟩).1

end Charts

end TreeWalk

end CodeGraph

import CodeGraph.Proofs.Query.Converse

/-!
# Call walks under their limits

A walk with a limit takes the same turns as one with room for all declarations until it meets the
first declaration beyond the limit, and there it ends. A walk that looked beyond the greatest depth
and found nothing new has met all that can be reached.

* `CallWalk.foldl_meet_beyond`: where the limit ends a walk among the neighbours of a declaration.
* `CallWalk.entries_run`: a run keeps the entries that a walk has.
* `CallWalk.IsCut`: how a walk with a limit ends, compared with one that has room;
  `CallWalk.isCut_run`: it ends so.
* **`Store.run_callGraph_exact`**: after any sequence of operations.
-/

namespace CodeGraph

open Std

namespace CallWalk

variable {s : Store} {t : Towards} {maxDepth limit : Nat}

/-! ## Walks that have ended -/

theorem meet_truncated {w : CallWalk} (h : w.truncated = true) (depth : Nat) (id : NodeId) :
    meet s limit depth w id = w := by
  simp [meet, h]

theorem foldl_meet_truncated {w : CallWalk} (h : w.truncated = true) (depth : Nat)
    (ids : List NodeId) : ids.foldl (meet s limit depth) w = w := by
  induction ids with
  | nil => rfl
  | cons id ids ih => rw [List.foldl_cons, meet_truncated h, ih]

theorem run_truncated {w : CallWalk} (h : w.truncated = true) (fuel : Nat) :
    run s t maxDepth limit fuel w = w := by
  cases fuel with
  | zero => rfl
  | succ fuel => rw [run, if_pos h]

/-! ## Entries stay -/

theorem entries_meet (depth : Nat) (w : CallWalk) (id : NodeId) :
    w.entries <+: (meet s limit depth w id).entries := by
  unfold meet
  split
  · exact List.prefix_rfl
  · dsimp only
    cases s.node? id with
    | none => exact List.prefix_rfl
    | some node =>
      dsimp only
      split
      · exact List.prefix_rfl
      · exact List.prefix_append _ _

theorem entries_foldl_meet (depth : Nat) (ids : List NodeId) (w : CallWalk) :
    w.entries <+: (ids.foldl (meet s limit depth) w).entries := by
  induction ids generalizing w with
  | nil => exact List.prefix_rfl
  | cons id ids ih => exact (entries_meet depth w id).trans (ih _)

theorem entries_run (fuel : Nat) (w : CallWalk) :
    w.entries <+: (run s t maxDepth limit fuel w).entries := by
  induction fuel generalizing w with
  | zero => exact List.prefix_rfl
  | succ fuel ih =>
    rw [run]
    split
    · exact List.prefix_rfl
    · cases w.queue with
      | nil => exact List.prefix_rfl
      | cons p queue =>
        dsimp only
        refine List.IsPrefix.trans ?_ (ih _)
        split
        · exact List.prefix_rfl
        · exact entries_foldl_meet _ _ { w with queue := queue }

/-! ## Where the limit ends a walk -/

theorem meet_beyond {depth : Nat} {w : CallWalk} {id : NodeId} {node : Node}
    (ht : w.truncated = false) (h : id ∉ w.visited) (hn : s.node? id = some node)
    (hlimit : limit ≤ w.entries.length) :
    meet s limit depth w id =
      { w with visited := w.visited.insert id, truncated := true } := by
  simp [meet, ht, h, hn, hlimit]

/-- With more declarations to meet than the limit leaves room for, a walk ends among them. -/
theorem foldl_meet_beyond (depth : Nat) (next : List (NodeId × EdgeKind)) (w : CallWalk)
    (ht : w.truncated = false) (hroom : w.entries.length ≤ limit)
    (hover : limit < w.entries.length + (s.unmet w.visited next).length) :
    ((next.map (·.1)).foldl (meet s limit depth) w).truncated = true ∧
    ((next.map (·.1)).foldl (meet s limit depth) w).entries =
      (w.entries ++ (s.unmet w.visited next).map (CallEntry.mk · depth)).take limit := by
  induction next generalizing w with
  | nil =>
    simp only [Store.unmet, pickFresh, List.filterMap_nil, List.length_nil] at hover
    omega
  | cons n next ih =>
    rw [List.map_cons, List.foldl_cons]
    by_cases hn : n.1 ∈ w.visited
    · rw [Store.unmet_cons_of_mem _ _ hn] at hover ⊢
      rw [meet_visited hn]
      exact ih w ht hroom hover
    · rw [Store.unmet_cons_of_notMem _ _ hn] at hover ⊢
      cases hnode : s.node? n.1 with
      | none =>
        rw [hnode] at hover
        rw [meet_missing ht hn hnode]
        exact ih { w with visited := w.visited.insert n.1 } ht hroom hover
      | some node =>
        simp only [hnode, Option.toList_some, List.singleton_append, List.length_cons] at hover ⊢
        by_cases hlast : w.entries.length < limit
        · rw [meet_found ht hn hnode hlast]
          have hlen : (w.entries ++ [CallEntry.mk node depth]).length = w.entries.length + 1 := by
            rw [List.length_append, List.length_singleton]
          have hih := ih
            { w with
              visited := w.visited.insert n.1
              entries := w.entries ++ [⟨node, depth⟩]
              queue := w.queue ++ [(n.1, depth)] } ht (by dsimp only; omega) (by dsimp only; omega)
          rwa [List.append_assoc] at hih
        · rw [meet_beyond ht hn hnode (by omega), foldl_meet_truncated rfl]
          refine ⟨rfl, ?_⟩
          have hlen : w.entries.length = limit := by omega
          rw [← hlen, List.take_left]

/-! ## Two walks in step -/

/-- How a walk with a limit ends, compared with one that has room: in the same way if the limit
leaves room for all its entries, and otherwise with the first of them. -/
def IsCut (limit : Nat) (all cut : CallWalk) : Prop :=
  (all.entries.length ≤ limit → cut = all) ∧
  (limit < all.entries.length → cut.truncated = true ∧ cut.entries = all.entries.take limit)

theorem isCut_self {w : CallWalk} (h : w.entries.length ≤ limit) : IsCut limit w w :=
  ⟨fun _ => rfl, fun hlt => absurd h (Nat.not_le.2 hlt)⟩

namespace IsCut

variable {all cut : CallWalk} (h : IsCut limit all cut)
include h

theorem entries_eq : cut.entries = all.entries.take limit := by
  rcases Nat.lt_or_ge limit all.entries.length with hlt | hle
  · exact (h.2 hlt).2
  · rw [h.1 hle, List.take_of_length_le hle]

theorem truncated_iff (hall : all.truncated = false) :
    cut.truncated = true ↔ limit < all.entries.length := by
  rcases Nat.lt_or_ge limit all.entries.length with hlt | hle
  · exact iff_of_true (h.2 hlt).1 hlt
  · rw [h.1 hle]
    exact iff_of_false (by simp [hall]) (Nat.not_lt.2 hle)

theorem eq_of_not_truncated (hcut : cut.truncated = false) : cut = all := by
  rcases Nat.lt_or_ge limit all.entries.length with hlt | hle
  · rw [(h.2 hlt).1] at hcut
    cases hcut
  · exact h.1 hle

theorem of_prefix {more : CallWalk} (hlt : limit < all.entries.length)
    (hpre : all.entries <+: more.entries) : IsCut limit more cut := by
  obtain ⟨ht, hentries⟩ := h.2 hlt
  obtain ⟨tail, hmore⟩ := hpre
  refine ⟨fun hle => ?_, fun _ => ⟨ht, ?_⟩⟩
  · rw [← hmore, List.length_append] at hle
    omega
  · rw [hentries, ← hmore, List.take_append_of_le_length (Nat.le_of_lt hlt)]

end IsCut

variable {room : Nat} {root : NodeId} {done : List (NodeId × Nat)} {w : CallWalk}

theorem isCut_foldl_meet (hs : s.Coherent) (depth : Nat) (next : List (NodeId × EdgeKind))
    (ht : w.truncated = false) (hle : w.entries.length ≤ limit)
    (hroom : w.entries.length + (s.unmet w.visited next).length ≤ room) :
    IsCut limit ((next.map (·.1)).foldl (meet s room depth) w)
      ((next.map (·.1)).foldl (meet s limit depth) w) := by
  rw [foldl_meet hs room depth next w ht hroom]
  by_cases hfits : w.entries.length + (s.unmet w.visited next).length ≤ limit
  · rw [foldl_meet hs limit depth next w ht hfits]
    refine isCut_self ?_
    rwa [List.length_append, List.length_map]
  · refine ⟨fun hlen => absurd ?_ hfits, fun _ => ?_⟩
    · rwa [List.length_append, List.length_map] at hlen
    · exact foldl_meet_beyond depth next w ht hle (Nat.not_le.1 hfits)

/-- **A walk with a limit ends as one with room does, cut at the limit.** -/
theorem isCut_run (hs : s.Coherent) (hroot : s.hasNode root = true) (hroom : s.nodeCount ≤ room)
    (fuel : Nat) (h : Searches s t maxDepth root done w) (hle : w.entries.length ≤ limit) :
    IsCut limit (run s t maxDepth room fuel w) (run s t maxDepth limit fuel w) := by
  -- both walks take the same turns, up to the one in which the limit is passed
  induction fuel generalizing done w with
  | zero => exact isCut_self hle
  | succ fuel ih =>
    rw [run, run, if_neg (by simp [h.truncated]), if_neg (by simp [h.truncated])]
    cases hq : w.queue with
    | nil => exact isCut_self hle
    | cons p queue =>
      obtain ⟨a, l⟩ := p
      have hmax : l ≤ maxDepth := forall_lt_iff_le.1 (h.frontier.sound (a, l) (by simp [hq])).2
      dsimp only
      split
      case isTrue hl =>
        obtain rfl : l = maxDepth := by simpa using hl
        exact ih (h.stop hs hq (Nat.lt_irrefl l)) hle
      case isFalse hl =>
        have hl : l < maxDepth := Nat.lt_of_le_of_ne hmax (by simpa using hl)
        have hmet := Nat.le_trans (h.length_entries_add_unmet hs hroot hq hl) hroom
        have hcut := isCut_foldl_meet (w := { w with queue := queue }) hs (l + 1)
          (s.neighbors a [.calls] t) h.truncated hle hmet
        by_cases hfits : (((s.neighbors a [.calls] t).map (·.1)).foldl (meet s room (l + 1))
            { w with queue := queue }).entries.length ≤ limit
        · rw [hcut.1 hfits]
          exact ih (h.expand hs hroot hroom hq hl) hfits
        · have hlt := Nat.not_le.1 hfits
          rw [run_truncated (hcut.2 hlt).1]
          exact hcut.of_prefix hlt (entries_run fuel _)

end CallWalk

namespace Store

variable {s : Store} {t : Towards} {root : NodeId} {limit room : Nat}

theorem isCut_callWalk (hs : s.Coherent) (hroot : s.hasNode root = true) (depth limit : Nat)
    (hroom : s.nodeCount ≤ room) :
    CallWalk.IsCut limit (s.callWalk t root depth room) (s.callWalk t root depth limit) :=
  CallWalk.isCut_run hs hroot hroom _ (CallWalk.searches_first s t _ root) (Nat.zero_le _)

theorem length_entries_callWalk (hs : s.Coherent) (hroot : s.hasNode root = true) (depth : Nat)
    (hroom : s.nodeCount ≤ room) :
    (s.callWalk t root depth room).entries.length ≤ s.nodeCount := by
  have hle := (layers_callWalk (t := t) hs hroot depth hroom).length_le hs
  rwa [List.length_map] at hle

theorem callWalk_eq_of_room (hs : s.Coherent) (hroot : s.hasNode root = true) (depth : Nat)
    (hroom : s.nodeCount ≤ room) (hlimit : s.nodeCount ≤ limit) :
    s.callWalk t root depth limit = s.callWalk t root depth room :=
  (isCut_callWalk hs hroot depth limit hroom).1
    ((length_entries_callWalk hs hroot depth hroom).trans hlimit)

/-- A walk that neither the limit nor the greatest depth held back lists all that can be reached. -/
theorem mem_callWalk_iff_reaches (hs : s.Coherent) (hroot : s.hasNode root = true) (depth : Nat)
    (hdeep : (s.callWalk t root depth limit).depthLimited = false)
    (hall : (s.callWalk t root depth limit).truncated = false) (n : Node) :
    n ∈ (s.callWalk t root depth limit).entries.map (·.node) ↔
      s.node? n.id = some n ∧ n.id ≠ root ∧
        Relation.ReflTransGen (s.Joins [.calls] t) root n.id := by
  have hroom := Nat.le_refl s.nodeCount
  rw [(isCut_callWalk hs hroot depth limit hroom).eq_of_not_truncated hall] at hdeep ⊢
  have hlayers := layers_callWalk (t := t) hs hroot depth hroom
  obtain ⟨met, hsearch, hq, hentries⟩ := searches_callWalk (t := t) hs hroot depth hroom
  have hnodes : (s.callWalk t root depth s.nodeCount).entries.map (·.node) =
      ((s.callWalk t root depth s.nodeCount).entries.map CallEntry.place).map (·.1) := by
    rw [List.map_map]
    rfl
  rw [hnodes]
  refine ⟨hlayers.reaches_of_mem, ?_⟩
  rintro ⟨hn, hne, hreach⟩
  have hend := hsearch.settled hdeep
  rw [hq, List.append_nil] at hend
  have hmet := Frontier.mem_of_reaches (hq ▸ hsearch.frontier) hend hreach
  rw [List.map_cons, List.mem_cons, or_iff_right hne] at hmet
  obtain ⟨⟨id, k⟩, hp, hid⟩ := List.mem_map.1 hmet
  obtain rfl : id = n.id := hid
  rw [hentries]
  exact List.mem_map.2 ⟨(n, k), (mem_filterMap_resolve hs).2 ⟨hn, hp⟩, rfl⟩

/-- **After any sequence of operations a call walk is an exact breadth-first search.** With room for
all declarations it lists those at a distance from one to the greatest depth, each once and with its
distance, the nearest first, and never its root. With any other limit it lists the first of them, as
many as the limit says, and tells whether there are more. If neither the limit nor the greatest
depth held it back, it lists all that can be reached. -/
theorem run_callGraph_exact (ops : List Operation) {id : NodeId}
    (hid : (run ops).hasNode id = true) (t : Towards) (depth limit : Nat) :
    ∃ all cut : CallGraph,
      (∀ room, (run ops).nodeCount ≤ room → (run ops).callGraph t id depth room = some all) ∧
      (run ops).Layers ((run ops).Joins [.calls] t) id (· ≤ min (max depth 1) maxCallDepth)
        (all.entries.map CallEntry.place) ∧
      (∀ e ∈ all.entries, e.node.id ≠ id) ∧
      (run ops).callGraph t id depth limit = some cut ∧
      cut.entries = all.entries.take limit ∧
      (cut.truncated = true ↔ limit < all.entries.length) ∧
      (cut.depthLimited = false → cut.truncated = false →
        ∀ n, n ∈ cut.entries.map (·.node) ↔
          (run ops).node? n.id = some n ∧ n.id ≠ id ∧
            Relation.ReflTransGen ((run ops).Joins [.calls] t) id n.id) := by
  have hs := coherent_run ops
  obtain ⟨r, hr⟩ := hasNode_iff.1 hid
  -- the number of declarations serves as the limit that leaves room for all
  have hroom := Nat.le_refl (run ops).nodeCount
  have hlayers := layers_callWalk (t := t) hs hid depth hroom
  have hcut := isCut_callWalk (t := t) hs hid depth limit hroom
  obtain ⟨met, hsearch, -⟩ := searches_callWalk (t := t) hs hid depth hroom
  refine ⟨((run ops).callWalk t id depth (run ops).nodeCount).graph r
      (min (max depth 1) maxCallDepth), _, fun room h => ?_, hlayers, fun e he => ?_,
    callGraph_eq hr depth limit, hcut.entries_eq, hcut.truncated_iff hsearch.truncated,
    fun hdeep hall => mem_callWalk_iff_reaches hs hid depth hdeep hall⟩
  · rw [callGraph_eq hr, callWalk_eq_of_room hs hid depth hroom h]
  · exact hlayers.ne_root (List.mem_map_of_mem he)

/-- The first declaration of the ring calls the second and, through it, the third; with a limit of
one a single entry is left, and it is told that there are more. -/
theorem run_callGraph_exact_ring :
    (run ring).hasNode "a" = true ∧ ∃ all cut,
      (run ring).callGraph .targets "a" 9 3 = some all ∧
      ⟨ringNode "b", 1⟩ ∈ all.entries ∧ ⟨ringNode "c", 2⟩ ∈ all.entries ∧
      (run ring).callGraph .targets "a" 9 1 = some cut ∧
      cut.entries = all.entries.take 1 ∧ cut.truncated = true := by
  have hfirst : (run ring).hasNode "a" = true := by decide +kernel
  have hroom : (run ring).nodeCount ≤ 3 := by decide +kernel
  obtain ⟨all, cut, hall, hlayers, -, hcut, hentries, htruncated, -⟩ :=
    run_callGraph_exact ring hfirst .targets 9 1
  obtain ⟨hb, hc, hlen⟩ := mem_layers_ring (by decide) (by decide) (by decide) hlayers
  rw [List.length_map] at hlen
  exact ⟨hfirst, all, cut, hall 3 hroom, CallEntry.mem_map_place.1 hb,
    CallEntry.mem_map_place.1 hc, hcut, hentries, htruncated.2 hlen⟩

end Store

end CodeGraph

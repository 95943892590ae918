import CodeGraph.Proofs.Query.Converse

/-!
# Dependency walks under their limit, and through what they met a declaration

* `Store.dependenciesFrom_cut`: a walk with a limit lists the first entries of one that has room.
* `Store.dependenciesFrom_direct`: a walk that is not transitive lists the entries at depth one.
* `Store.Vouched`: a declaration was met from the root or through one listed before it;
  `Store.vouched_dependenciesFrom`: all that a walk lists was met so.
* **`Store.run_dependencyWalk_exact`**: after any sequence of operations.
-/

namespace CodeGraph

open Std

namespace Store

variable {s : Store} {t : Towards} {transitive : Bool} {root : NodeId}

/-! ## The limit -/

/-- A walk with a limit lists the first entries of one that has room, and tells whether there are
more. -/
theorem dependenciesFrom_cut (fuel room limit : Nat) (visited : ExtTreeSet NodeId)
    (queue : List DependencyStep)
    (h : (s.dependenciesFrom t transitive fuel room visited queue).2 = false) :
    s.dependenciesFrom t transitive fuel limit visited queue =
      ((s.dependenciesFrom t transitive fuel room visited queue).1.take limit,
        decide (limit < (s.dependenciesFrom t transitive fuel room visited queue).1.length)) := by
  induction fuel generalizing room limit visited queue with
  | zero => simp [dependenciesFrom]
  | succ fuel ih =>
    cases queue with
    | nil => simp [dependenciesFrom_nil]
    | cons q queue =>
      cases hq : s.node? q.id with
      | none =>
        rw [dependenciesFrom_missing hq] at h
        rw [dependenciesFrom_missing hq, dependenciesFrom_missing hq]
        exact ih room limit visited queue h
      | some node =>
        cases room with
        | zero =>
          rw [dependenciesFrom_full hq] at h
          cases h
        | succ room =>
          rw [dependenciesFrom_found hq] at h ⊢
          cases limit with
          | zero => simp [dependenciesFrom_full hq]
          | succ limit =>
            rw [dependenciesFrom_found hq, ih room limit _ _ h]
            simp

/-! ## What a walk comes to next -/

theorem mem_onward (hs : s.Coherent) {visited : ExtTreeSet NodeId} {queue : List DependencyStep}
    {q p : DependencyStep} (h : p ∈ (s.onward t transitive visited queue q).2) :
    p ∈ queue ∨ s.Leads [.dependsOn] t q.id p.id ∧ p.depth = q.depth + 1 ∧ p.via = some q.id := by
  unfold onward at h
  split at h
  · rcases List.mem_append.1 h with h | h
    · exact .inl h
    · obtain ⟨n, hn, rfl⟩ := List.mem_map.1 h
      have hfresh := (mem_pickFresh visited (s.neighbors q.id [.dependsOn] t) n.1).1
        (List.mem_map_of_mem hn)
      exact .inr ⟨(mem_neighbors hs).1 hfresh.1, rfl, rfl⟩
  · exact .inl h

theorem onward_append (visited : ExtTreeSet NodeId) (near far : List DependencyStep)
    (q : DependencyStep) :
    s.onward t true visited (near ++ far) q =
      ((s.onward t true visited far q).1, near ++ (s.onward t true visited far q).2) := by
  simp [onward, queueFresh]

/-! ## Depth one -/

theorem depth_dependenciesFrom (hs : s.Coherent) {k : Nat} (fuel limit : Nat)
    (visited : ExtTreeSet NodeId) (queue : List DependencyStep) (h : ∀ q ∈ queue, k ≤ q.depth) :
    ∀ e ∈ (s.dependenciesFrom t transitive fuel limit visited queue).1, k ≤ e.depth := by
  induction fuel generalizing limit visited queue with
  | zero => simp [dependenciesFrom]
  | succ fuel ih =>
    cases queue with
    | nil => simp [dependenciesFrom_nil]
    | cons q queue =>
      obtain ⟨hfirst, hrest⟩ := List.forall_mem_cons.1 h
      cases hq : s.node? q.id with
      | none =>
        rw [dependenciesFrom_missing hq]
        exact ih limit visited queue hrest
      | some node =>
        cases limit with
        | zero => simp [dependenciesFrom_full hq]
        | succ limit =>
          rw [dependenciesFrom_found hq]
          refine List.forall_mem_cons.2 ⟨hfirst, ih limit _ _ fun p hp => ?_⟩
          rcases mem_onward hs hp with hp | ⟨-, hdepth, -⟩
          · exact hrest p hp
          · omega

/-- A walk that is not transitive lists what a transitive one lists at depth one. -/
theorem dependenciesFrom_direct (hs : s.Coherent) (fuel limit : Nat)
    (visited visited' : ExtTreeSet NodeId) (near far : List DependencyStep)
    (hnear : ∀ q ∈ near, q.depth = 1) (hfar : ∀ q ∈ far, 2 ≤ q.depth) :
    (s.dependenciesFrom t false fuel limit visited' near).1 =
      (s.dependenciesFrom t true fuel limit visited (near ++ far)).1.filter (·.depth == 1) := by
  -- both walks look at the near part alike; what the transitive one adds goes to the far part
  induction fuel generalizing limit visited near far with
  | zero => rfl
  | succ fuel ih =>
    cases near with
    | nil =>
      have hdeep : ∀ e ∈ (s.dependenciesFrom t true (fuel + 1) limit visited far).1, 2 ≤ e.depth :=
        depth_dependenciesFrom hs _ _ _ _ hfar
      rw [dependenciesFrom_nil, List.nil_append]
      refine (List.filter_eq_nil_iff.2 fun e he => ?_).symm
      have := hdeep e he
      simp only [beq_iff_eq]
      omega
    | cons q near =>
      obtain ⟨hfirst, hnear⟩ := List.forall_mem_cons.1 hnear
      rw [List.cons_append]
      cases hq : s.node? q.id with
      | none =>
        rw [dependenciesFrom_missing hq, dependenciesFrom_missing hq]
        exact ih limit visited near far hnear hfar
      | some node =>
        cases limit with
        | zero =>
          rw [dependenciesFrom_full hq, dependenciesFrom_full hq]
          rfl
        | succ limit =>
          have hfar' : ∀ p ∈ (s.onward t true visited far q).2, 2 ≤ p.depth := by
            intro p hp
            rcases mem_onward hs hp with hp | ⟨-, hdepth, -⟩
            · exact hfar p hp
            · omega
          rw [dependenciesFrom_found hq, dependenciesFrom_found hq, onward_append,
            List.filter_cons_of_pos (by simp [hfirst]), ← ih limit _ near _ hnear hfar']
          rfl

/-! ## Through what a declaration was met -/

/-- An identifier was met from the root, or through an entry listed before, at the next depth. -/
def Vouched (s : Store) (t : Towards) (listed : List DependencyEntry) (id : NodeId) (depth : Nat)
    (via : Option NodeId) : Prop :=
  (depth = 1 ∧ via = none) ∨
    ∃ p ∈ listed, via = some p.node.id ∧ depth = p.depth + 1 ∧
      s.Leads [.dependsOn] t p.node.id id

theorem Vouched.mono {listed listed' : List DependencyEntry} {id : NodeId} {depth : Nat}
    {via : Option NodeId} (h : s.Vouched t listed id depth via) (hsub : listed ⊆ listed') :
    s.Vouched t listed' id depth via := by
  rcases h with h | ⟨p, hp, h⟩
  · exact .inl h
  · exact .inr ⟨p, hsub hp, h⟩

/-- All that a walk lists was met from the root or through an entry listed before it. -/
theorem vouched_dependenciesFrom (hs : s.Coherent) (fuel limit : Nat)
    (visited : ExtTreeSet NodeId) (queue : List DependencyStep) (listed : List DependencyEntry)
    (h : ∀ q ∈ queue, s.Vouched t listed q.id q.depth q.via) {before after : List DependencyEntry}
    {e : DependencyEntry}
    (hsplit : (s.dependenciesFrom t transitive fuel limit visited queue).1 =
      before ++ e :: after) :
    s.Vouched t (listed ++ before) e.node.id e.depth e.via := by
  induction fuel generalizing limit visited queue listed before with
  | zero => simp [dependenciesFrom] at hsplit
  | succ fuel ih =>
    cases queue with
    | nil => simp [dependenciesFrom_nil] at hsplit
    | cons q queue =>
      obtain ⟨hfirst, hrest⟩ := List.forall_mem_cons.1 h
      cases hq : s.node? q.id with
      | none =>
        rw [dependenciesFrom_missing hq] at hsplit
        exact ih limit visited queue listed hrest hsplit
      | some node =>
        have hid := hs.node_id hq
        cases limit with
        | zero => simp [dependenciesFrom_full hq] at hsplit
        | succ limit =>
          rw [dependenciesFrom_found hq] at hsplit
          cases before with
          | nil =>
            obtain ⟨rfl, -⟩ := List.cons.inj hsplit
            rw [List.append_nil]
            rwa [← hid] at hfirst
          | cons b before =>
            obtain ⟨rfl, htail⟩ := List.cons.inj hsplit
            rw [List.append_cons]
            refine ih limit _ _ _ (fun p hp => ?_) htail
            rcases mem_onward hs hp with hp | ⟨hleads, hdepth, hvia⟩
            · exact (hrest p hp).mono (List.subset_append_left _ _)
            · refine .inr ⟨_, List.mem_append_right _ (List.mem_singleton_self _), ?_⟩
              rw [hid]
              exact ⟨hvia, hdepth, hleads⟩

/-! ## Whole walks -/

theorem first_of_mem_firstDependencies {q : DependencyStep}
    (h : q ∈ (s.firstDependencies t root).2) : q.depth = 1 ∧ q.via = none := by
  obtain ⟨n, -, rfl⟩ := List.mem_map.1 ((List.mem_append.1 h).resolve_left List.not_mem_nil)
  exact ⟨rfl, rfl⟩

theorem listedDependencies_cut (hs : s.Coherent) (hroot : s.hasNode root = true)
    (transitive : Bool) {room : Nat} (hroom : s.nodeCount ≤ room) (limit : Nat) :
    s.listedDependencies t root transitive limit =
      ((s.listedDependencies t root transitive room).1.take limit,
        decide (limit < (s.listedDependencies t root transitive room).1.length)) :=
  dependenciesFrom_cut _ room limit _ _ (layers_listedDependencies hs hroot transitive hroom).2

theorem listedDependencies_eq_of_room (hs : s.Coherent) (hroot : s.hasNode root = true)
    (transitive : Bool) {room limit : Nat} (hroom : s.nodeCount ≤ room)
    (hlimit : s.nodeCount ≤ limit) :
    s.listedDependencies t root transitive limit = s.listedDependencies t root transitive room := by
  obtain ⟨hlayers, hall⟩ := layers_listedDependencies (t := t) hs hroot transitive hroom
  have hle := (hlayers.length_le hs).trans hlimit
  rw [List.length_map] at hle
  rw [listedDependencies_cut hs hroot transitive hroom limit, List.take_of_length_le hle,
    decide_eq_false (Nat.not_lt.2 hle), ← hall]

theorem listedDependencies_direct (hs : s.Coherent) (limit : Nat) :
    (s.listedDependencies t root false limit).1 =
      (s.listedDependencies t root true limit).1.filter (·.depth == 1) := by
  have hdirect := dependenciesFrom_direct (t := t) hs (s.edgeCount + 1) limit
    (s.firstDependencies t root).1 (s.firstDependencies t root).1 (s.firstDependencies t root).2 []
    (fun q hq => (first_of_mem_firstDependencies hq).1) (by simp)
  rwa [List.append_nil] at hdirect

theorem via_listedDependencies (hs : s.Coherent) (hroot : s.hasNode root = true)
    (transitive : Bool) {limit : Nat} (hlimit : s.nodeCount ≤ limit)
    {before after : List DependencyEntry} {e : DependencyEntry}
    (hsplit : (s.listedDependencies t root transitive limit).1 = before ++ e :: after) :
    (e.via = none ↔ e.depth = 1) ∧
      (e.depth ≠ 1 → ∃ p ∈ before, e.via = some p.node.id ∧ p.depth + 1 = e.depth ∧
        s.Joins [.dependsOn] t p.node.id e.node.id) := by
  obtain ⟨hlayers, -⟩ := layers_listedDependencies (t := t) hs hroot transitive hlimit
  rw [hsplit] at hlayers
  have hmem : ∀ p, p ∈ before ++ e :: after →
      p.place ∈ (before ++ e :: after).map DependencyEntry.place := fun _ => List.mem_map_of_mem
  have hvouched := vouched_dependenciesFrom hs (s.edgeCount + 1) limit _ _ []
    (fun q hq => .inl (first_of_mem_firstDependencies hq)) hsplit
  rw [List.nil_append] at hvouched
  rcases hvouched with ⟨hdepth, hvia⟩ | ⟨p, hp, hvia, hdepth, hleads⟩
  · exact ⟨iff_of_true hvia hdepth, fun hne => absurd hdepth hne⟩
  · have hp' := hmem p (List.mem_append_left _ hp)
    have hpos : 0 < p.depth := ((hlayers.mem_iff _ _).1 hp').2.1
    refine ⟨iff_of_false (by simp [hvia]) (by omega), fun _ => ⟨p, hp, hvia, hdepth.symm, ?_⟩⟩
    exact ⟨hlayers.hasNode_of_mem hp', hlayers.hasNode_of_mem (hmem e (by simp)), hleads⟩

/-- **After any sequence of operations a dependency walk is an exact breadth-first search that tells
through what it met a declaration.** With room for all declarations, a transitive walk lists those
that can be reached, but for its root, each once and with its distance, the nearest first; at depth
one an entry names nothing, and any other names the declaration of an earlier entry, one less deep,
that is joined to it. A walk that is not transitive lists the entries at depth one, in that order.
With any other limit, a walk lists the first entries, as many as the limit says, and tells whether
there are more. -/
theorem run_dependencyWalk_exact (ops : List Operation) {id : NodeId}
    (hid : (run ops).hasNode id = true) (t : Towards) (limit : Nat) :
    ∃ full : Bool → Dependencies,
      (∀ transitive room, (run ops).nodeCount ≤ room →
        (run ops).dependencyWalk t id transitive room = some (full transitive)) ∧
      (run ops).Layers ((run ops).Joins [.dependsOn] t) id (fun _ => True)
        ((full true).entries.map DependencyEntry.place) ∧
      (∀ n, n ∈ (full true).entries.map (·.node) ↔
        (run ops).node? n.id = some n ∧ n.id ≠ id ∧
          Relation.ReflTransGen ((run ops).Joins [.dependsOn] t) id n.id) ∧
      (∀ before e after, (full true).entries = before ++ e :: after →
        (e.via = none ↔ e.depth = 1) ∧
        (e.depth ≠ 1 → ∃ p ∈ before, e.via = some p.node.id ∧ p.depth + 1 = e.depth ∧
          (run ops).Joins [.dependsOn] t p.node.id e.node.id)) ∧
      (full false).entries = (full true).entries.filter (·.depth == 1) ∧
      ∀ transitive, ∃ cut, (run ops).dependencyWalk t id transitive limit = some cut ∧
        cut.entries = (full transitive).entries.take limit ∧
        (cut.truncated = true ↔ limit < (full transitive).entries.length) := by
  have hs := coherent_run ops
  obtain ⟨r, hr⟩ := hasNode_iff.1 hid
  -- the number of declarations serves as the limit that leaves room for all
  have hroom := Nat.le_refl (run ops).nodeCount
  have hlayers : (run ops).Layers ((run ops).Joins [.dependsOn] t) id (fun _ => True)
      (((run ops).listedDependencies t id true (run ops).nodeCount).1.map DependencyEntry.place) :=
    (layers_listedDependencies hs hid true hroom).1.congr (fun _ => by simp) fun _ _ _ => Iff.rfl
  refine ⟨fun transitive => shownDependencies r transitive
      ((run ops).listedDependencies t id transitive (run ops).nodeCount),
    fun transitive room h => ?_, hlayers, fun n => ?_,
    fun before e after => via_listedDependencies hs hid true hroom, listedDependencies_direct hs _,
    fun transitive => ⟨_, dependencyWalk_eq hr transitive limit, ?_⟩⟩
  · rw [dependencyWalk_eq hr, listedDependencies_eq_of_room hs hid transitive hroom h]
  · rw [← hlayers.mem_iff_reaches, List.map_map]
    rfl
  · rw [listedDependencies_cut hs hid transitive hroom limit]
    exact ⟨rfl, decide_eq_true_iff⟩

/-- In the ring, the third declaration is met through the second; with a limit of one a single entry
is left of the two, and it is told that there are more. -/
theorem run_dependencyWalk_exact_ring :
    (run ring).hasNode "a" = true ∧ ∃ all cut,
      (run ring).dependencyWalk .targets "a" true 3 = some all ∧
      (∃ via, ⟨ringNode "b", 1, via⟩ ∈ all.entries) ∧
      (∃ p, ⟨ringNode "c", 2, some p⟩ ∈ all.entries ∧
        (run ring).Joins [.dependsOn] .targets p "c") ∧
      (run ring).dependencyWalk .targets "a" true 1 = some cut ∧
      cut.entries = all.entries.take 1 ∧ cut.truncated = true := by
  have hfirst : (run ring).hasNode "a" = true := by decide +kernel
  have hroom : (run ring).nodeCount ≤ 3 := by decide +kernel
  obtain ⟨full, hfull, hlayers, -, hvia, -, hcut⟩ :=
    run_dependencyWalk_exact ring hfirst .targets 1
  obtain ⟨cut, hwalk, hentries, htruncated⟩ := hcut true
  obtain ⟨hb, hc, hlen⟩ := mem_layers_ring (by decide) trivial trivial hlayers
  rw [List.length_map] at hlen
  obtain ⟨via, hc⟩ := DependencyEntry.mem_map_place.1 hc
  -- the third declaration stands two steps from the first, so that its entry names another one
  obtain ⟨before, after, hsplit⟩ := List.append_of_mem hc
  obtain ⟨p, -, rfl, -, hjoins⟩ := (hvia before _ after hsplit).2 (show 2 ≠ 1 by decide)
  exact ⟨hfirst, full true, cut, hfull true 3 hroom, DependencyEntry.mem_map_place.1 hb,
    ⟨p.node.id, hc, hjoins⟩, hwalk, hentries, htruncated.2 hlen⟩

end Store

end CodeGraph

import CodeGraph.Proofs.SettledOrder
import CodeGraph.Proofs.Update.Visit

/-!
# What a batch pulls in

A visit that succeeds pulls in every file that refers to a declaration that went or came, unless it
was seen before. References change while the batch goes on, but only those of files that were
visited, so at its end no file that refers to a touched declaration was left out.

* `Visit.Pulls`: a visit pulls a file in.
* `Tracked`: the invariant of a batch and its visits so far.
* `Tracked.visit`, **`Project.processChanges_visits`**: every visit keeps it, and a whole batch.
* **`Regime.Live.cascade_closed`**: the main statement.
-/

namespace CodeGraph

open Std

/-! ## What a visit does to its batch -/

/-- The files that a summary lists, and whether the batch was stopped. -/
def Summary.files (s : Summary) : List Path × List Path × List Path × Bool :=
  (s.updatedFiles, s.cascadedFiles, s.failedFiles, s.cancelled)

namespace Project

theorem files_removeFile (w : World) (p : Project) (s : Summary) (path : Path) :
    (p.removeFile w s path).2.1.files = s.files := by
  unfold removeFile
  dsimp only
  rcases forgetFile w _ path with ⟨q, e | _⟩ <;> rfl

theorem files_removeStale (w : World) (paths : List Path) (p : Project) (s : Summary) :
    (Batch.removeStale w paths p s).2.1.files = s.files := by
  induction paths generalizing p s with
  | nil => rfl
  | cons path paths ih =>
    have hfile := p.files_removeFile w s path
    rw [Batch.removeStale]
    rcases hr : p.removeFile w s path with ⟨q, s', e | removal⟩
    · rw [hr] at hfile
      exact hfile
    · rw [hr] at hfile
      have hrest := ih q s'
      dsimp only at hfile ⊢
      rcases hstale : Batch.removeStale w paths q s' with ⟨q', s'', e | found⟩
      · rw [hstale] at hrest
        exact hrest.trans hfile
      · rw [hstale] at hrest
        exact hrest.trans hfile

theorem files_respond (w : World) (p : Project) (s : Summary) (f : InFlight) (reply : Reply) :
    (p.respond w s f reply).2.1.files = s.files := by
  unfold respond
  dsimp only
  split
  · rfl
  · unfold integrate
    dsimp only
    rcases saveOutput w _ _ _ with ⟨q, e | _⟩ <;> rfl

theorem files_handle (w : World) (p : Project) (s : Summary) (c : Change) :
    (p.handle w s c).2.1.files = s.files := by
  have hstale := files_removeStale w c.places p s
  unfold handle
  rcases hr : Batch.removeStale w c.places p s with ⟨q, s', e | ⟨removed, orphaned⟩⟩
  · rw [hr] at hstale
    exact hstale
  · rw [hr] at hstale
    dsimp only at hstale ⊢
    split
    · exact hstale
    · rw [files_respond, hstale]

/-- The end of a batch can turn updated files into failed ones, and nothing else. -/
theorem files_finish (w : World) (p : Project) (b : Batch) :
    ((p.finish w b).2.updatedFiles ++ (p.finish w b).2.failedFiles).Perm
        (b.summary.updatedFiles ++ b.summary.failedFiles) ∧
      (p.finish w b).2.cascadedFiles = b.summary.cascadedFiles ∧
      (p.finish w b).2.cancelled = b.summary.cancelled := by
  unfold finish flushBatch failAll
  dsimp only
  split
  · exact ⟨.refl _, rfl, rfl⟩
  · rcases p.call w .flush _ with ⟨q, e | _⟩
    · dsimp only
      rw [List.nil_append]
      exact ⟨List.perm_append_comm, rfl, rfl⟩
    · exact ⟨.refl _, rfl, rfl⟩

end Project

namespace Batch

/-- The files that a batch pulls in after a visit. -/
def pulled (b : Batch) (c : Change) : Project × Summary × Except Error Handling → List Path
  | (p, s, .ok h) =>
    if b.cascade then (b.taken c.path s).dependents p.references h.seed else []
  | (_, _, .error _) => []

section Close

variable (b : Batch) (c : Change) (cascaded : Bool) (o : Project × Summary × Except Error Handling)

theorem keeps_close : Project.Keeps o.1 (b.close c cascaded o).1 := by
  obtain ⟨q, s, e | h⟩ := o
  · exact .publish q _
  · exact .refl q

theorem close_eq_enqueue :
    ∃ s, (b.close c cascaded o).2 = (b.taken c.path s).enqueue (b.pulled c o) := by
  obtain ⟨q, s, e | h⟩ := o
  · exact ⟨_, by simp [close, fail, pulled, enqueue, taken]; rfl⟩
  · cases hc : b.cascade with
    | true => exact ⟨_, by simp only [close, advance, succeed, pulled, taken, hc, if_true]; rfl⟩
    | false =>
      exact ⟨_, by simp [close, advance, succeed, pulled, enqueue, taken, hc]; rfl⟩

theorem queue_close : (b.close c cascaded o).2.queue =
    b.queue.tail ++ (b.pulled c o).map fun f => (.modified f, true) := by
  obtain ⟨s, h⟩ := b.close_eq_enqueue c cascaded o
  rw [h]
  rfl

theorem cascade_close : (b.close c cascaded o).2.cascade = b.cascade := by
  obtain ⟨s, h⟩ := b.close_eq_enqueue c cascaded o
  rw [h]
  rfl

theorem keys_close : (b.close c cascaded o).2.keys =
    (b.queue.tail.map fun c => c.1.path.parts) ++ (b.pulled c o).map Path.parts := by
  rw [keys, queue_close, List.map_append, List.map_map]
  rfl

theorem mem_processed_close {k : List Part} :
    k ∈ (b.close c cascaded o).2.processed ↔ k = c.path.parts ∨ k ∈ b.processed := by
  obtain ⟨s, h⟩ := b.close_eq_enqueue c cascaded o
  rw [h]
  exact mem_processed_taken (s := s)

theorem mem_queued_close {k : List Part} :
    k ∈ (b.close c cascaded o).2.queued ↔ k ∈ b.queued ∨ k ∈ (b.pulled c o).map Path.parts := by
  obtain ⟨s, h⟩ := b.close_eq_enqueue c cascaded o
  rw [h]
  exact mem_queued_enqueue

theorem mem_pulled (hr : o.1.references.Mutual) {f : Path} (hf : f ∈ b.pulled c o) :
    (∃ h, o.2.2 = .ok h ∧ ∃ id ∈ h.seed, (o.1.references.filesOf id)[f.parts]? = some f) ∧
      f.parts ≠ c.path.parts ∧ f.parts ∉ b.processed ∧ f.parts ∉ b.queued := by
  obtain ⟨q, s, e | h⟩ := o
  · simp [pulled] at hf
  · cases hc : b.cascade with
    | true =>
      simp only [pulled, hc, if_true] at hf
      obtain ⟨hrefers, hprocessed, hqueued⟩ := mem_dependents hr hf
      rw [mem_processed_taken, not_or] at hprocessed
      exact ⟨⟨h, rfl, hrefers⟩, hprocessed.1, hprocessed.2, hqueued⟩
    | false => simp [pulled, hc] at hf

theorem exists_pulled (hr : o.1.references.Mutual) (hcascade : b.cascade = true) {h : Handling}
    (hok : o.2.2 = .ok h) {id : NodeId} (hid : id ∈ h.seed) {k : List Part}
    (hk : k ∈ o.1.references.filesOf id) (hne : k ≠ c.path.parts) (hprocessed : k ∉ b.processed)
    (hqueued : k ∉ b.queued) : k ∈ (b.pulled c o).map Path.parts := by
  obtain ⟨q, s, e | h'⟩ := o
  · cases hok
  · cases hok
    obtain ⟨f, hf, hparts⟩ := exists_dependent (b := b.taken c.path s) hr hid hk
      (by rw [mem_processed_taken, not_or]; exact ⟨hne, hprocessed⟩) hqueued
    simp only [pulled, hcascade, if_true]
    exact List.mem_map.2 ⟨f, hf, hparts⟩

theorem nodup_pulled (hr : o.1.references.Mutual) : ((b.pulled c o).map Path.parts).Nodup := by
  obtain ⟨q, s, e | h⟩ := o
  · simp [pulled]
  · cases hc : b.cascade with
    | true =>
      simp only [pulled, hc, if_true]
      exact nodup_dependents hr _ _
    | false => simp [pulled, hc]

end Close

section Remaining

variable {w : World} {b : Batch} {p : Project} {c : Change} {cascaded : Bool}
  {rest : List (Change × Bool)} (hqueue : b.queue = (c, cascaded) :: rest)
include hqueue

theorem remaining_close (hr : p.references.Mutual) (hhead : c.path.parts ∈ b.queued) :
    (b.close c cascaded (p.handle w b.summary c)).2.remaining
      (b.close c cascaded (p.handle w b.summary c)).1.references < b.remaining p.references := by
  have hfollows := p.handle_follows w b.summary c
  rw [(b.keeps_close c cascaded (p.handle w b.summary c)).references]
  generalize p.handle w b.summary c = o at hfollows
  have hr' := hfollows.keeps hr
  obtain ⟨s, hclose⟩ := b.close_eq_enqueue c cascaded o
  have hle : ((b.taken c.path s).enqueue (b.pulled c o)).remaining o.1.references ≤
      (b.taken c.path s).remaining o.1.references := by
    obtain ⟨q, s', e | h⟩ := o
    · simp [pulled, enqueue, remaining, unseen]
    · cases hc : b.cascade with
      | true =>
        simp only [pulled, hc, if_true]
        exact remaining_enqueue hr' (b.taken c.path s) h.seed
      | false => simp [pulled, hc, enqueue, remaining, unseen]
  have hmono : (b.taken c.path s).remaining o.1.references ≤
      (b.taken c.path s).remaining p.references := by
    refine remaining_mono fun k hk hnot => ?_
    obtain ⟨t, ht⟩ := (Index.mem_iff_exists_mem_bucket hr'.proper).1 hk
    rcases hfollows.mem_targets ht with rfl | ht
    · exact absurd hhead hnot
    · exact (Index.mem_iff_exists_mem_bucket hr.proper).2 ⟨t, ht⟩
  have hlt : (b.taken c.path s).remaining p.references < b.remaining p.references := by
    change b.queue.tail.length + (b.unseen p.references).length < b.remaining p.references
    rw [remaining, hqueue, List.tail_cons, List.length_cons]
    omega
  rw [hclose]
  omega

end Remaining

end Batch

/-! ## The visits so far -/

namespace Visit

/-- The visit came to its end. -/
def succeeded (v : Visit) : Bool := v.result.isOk

/-- The visit took a declaration out. -/
def Removes (v : Visit) (id : NodeId) : Prop :=
  ∃ n, v.before.project.store.node? id = some n ∧
    ∃ f ∈ v.change.places, n.file.parts = f.parts

/-- The visit put a change at the end of the queue, whose file refers to a declaration that the
visit took out or put in. -/
def Pulls (v : Visit) (c : Change) : Prop :=
  (c, true) ∉ v.before.batch.queue ∧ (c, true) ∈ v.after.batch.queue ∧
    ∃ h, v.result = .ok h ∧ ∃ id ∈ h.seed, c.path.parts ∈ v.after.project.references.filesOf id

/-- The files of visits as a summary lists them. -/
def listed (past : List Visit) : List Path × List Path × List Path × Bool :=
  ((past.filter fun v => v.succeeded).map (·.change.path),
   (past.filter fun v => v.cascaded && v.succeeded).map (·.change.path),
   (past.filter fun v => !v.succeeded).map (·.change.path), false)

theorem listed_concat (past : List Visit) (v : Visit) :
    listed (past ++ [v]) =
      match v.result with
      | .ok _ => ((listed past).1 ++ [v.change.path],
          (listed past).2.1 ++ (if v.cascaded then [v.change.path] else []), (listed past).2.2)
      | .error _ => ((listed past).1, (listed past).2.1, (listed past).2.2.1 ++ [v.change.path],
          (listed past).2.2.2) := by
  cases hr : v.result with
  | ok found =>
    have hv : v.succeeded = true := by rw [succeeded, hr]; rfl
    cases hc : v.cascaded <;> simp [listed, hv, hc]
  | error e =>
    have hv : v.succeeded = false := by rw [succeeded, hr]; rfl
    simp [listed, hv]

theorem perm_listed (past : List Visit) :
    ((listed past).1 ++ (listed past).2.2.1).Perm (past.map (·.change.path)) := by
  rw [listed, ← List.map_append]
  exact (List.filter_append_perm _ past).map _

end Visit

theorem concat_eq_append_cons {α : Type} {l pre post : List α} {a c : α}
    (h : l ++ [c] = pre ++ a :: post) : (pre = l ∧ a = c) ∨ ∃ post, l = pre ++ a :: post := by
  rcases List.eq_nil_or_concat post with rfl | ⟨post, b, rfl⟩
  · obtain ⟨rfl, ha⟩ := List.append_inj' h rfl
    exact .inl ⟨rfl, (List.singleton_inj.1 ha).symm⟩
  · rw [List.concat_eq_append, ← List.cons_append, ← List.append_assoc] at h
    exact .inr ⟨post, (List.append_inj' h rfl).1⟩

/-- The middle of a batch, after some visits. -/
structure Tracked (past : List Visit) (p : Project) (b : Batch) : Prop where
  consistent : p.Consistent
  processed : ∀ {k}, k ∈ b.processed ↔ ∃ v ∈ past, v.change.path.parts = k
  once : (past.map (·.change.path.parts)).Nodup
  queued : ∀ {k}, k ∈ b.queued ↔ k ∈ b.processed ∨ k ∈ b.keys
  distinct : b.keys.Nodup ∧ ∀ k ∈ b.keys, k ∉ b.processed
  closed : b.cascade = true → ∀ {v h}, v ∈ past → v.result = .ok h → ∀ id ∈ h.seed,
    ∀ k ∈ p.references.filesOf id, k ∈ b.queued
  pulled : ∀ {c}, (c, true) ∈ b.queue → ∃ u ∈ past, u.Pulls c
  caused : ∀ {pre v post}, past = pre ++ v :: post → v.cascaded = true →
    ∃ u ∈ pre, u.Pulls v.change
  seeds : ∀ {v h}, v ∈ past → v.result = .ok h → ∀ id,
    id ∈ h.seed ↔ v.Removes id ∨ id ∈ h.output.nodes.map Node.id
  listed : b.summary.files = Visit.listed past

namespace Tracked

variable {w : World} {past : List Visit} {p : Project} {b : Batch} {c : Change} {cascaded : Bool}
  {rest : List (Change × Bool)}

theorem begin {p : Project} (hp : p.Consistent) (changes : List Change) (cascade : Bool) :
    Tracked [] (p.begin changes cascade).1 (p.begin changes cascade).2 := by
  have hkeys : (p.begin changes cascade).2.keys =
      (settle (changes.map (Project.normalizeChange p.root))).map fun c => c.path.parts := by
    simp [Batch.keys, Project.begin]
  refine ⟨hp.congr rfl rfl, ?_, List.nodup_nil, ?_, ⟨?_, ?_⟩, ?_, ?_, ?_, ?_, rfl⟩
  · simp [Project.begin]
  · intro k
    rw [hkeys]
    change k ∈ List.foldl _ _ _ ↔ _
    rw [Batch.mem_foldl_insert fun c : Change => c.path.parts]
    simp [Project.begin]
  · rw [hkeys]
    exact (orderly_settle _).nodup_paths
  · simp [Project.begin]
  · simp
  · simp [Project.begin]
  · simp
  · simp

section Visit

variable (h : Tracked past p b)
include h

theorem seeds_visit {found : Handling} (hok : (b.visit w p c cascaded).result = .ok found)
    (id : NodeId) : id ∈ found.seed ↔
      (b.visit w p c cascaded).Removes id ∨ id ∈ found.output.nodes.map Node.id := by
  have hhandle : p.handle w b.summary c =
      ((p.handle w b.summary c).1, (p.handle w b.summary c).2.1, .ok found) :=
    Prod.ext rfl (Prod.ext rfl hok)
  rw [Handling.seed, List.mem_append, (Project.handle_eq_ok hhandle).1,
    Project.mem_nodes_dropFiles h.consistent.coherent]
  rfl

theorem listed_visit : (b.visit w p c cascaded).after.batch.summary.files =
    Visit.listed (past ++ [b.visit w p c cascaded]) := by
  rw [Visit.listed_concat, ← h.listed, ← p.files_handle w b.summary c]
  change (b.close c cascaded (p.handle w b.summary c)).2.summary.files = _
  dsimp only [Batch.visit]
  rcases p.handle w b.summary c with ⟨q, s, e | found⟩
  · rfl
  · unfold Batch.close Batch.advance Batch.succeed
    dsimp only
    split <;> rfl

variable (hqueue : b.queue = (c, cascaded) :: rest)
include hqueue

omit h in
theorem mem_keys {k : List Part} :
    k ∈ b.keys ↔ k = c.path.parts ∨ k ∈ rest.map fun c => c.1.path.parts := by
  simp [Batch.keys, hqueue]

theorem head_new : c.path.parts ∉ b.processed :=
  h.distinct.2 _ ((mem_keys hqueue).2 (.inl rfl))

theorem head_queued : c.path.parts ∈ b.queued :=
  h.queued.2 (.inr ((mem_keys hqueue).2 (.inl rfl)))

theorem distinct_close {o : Project × Summary × Except Error Handling}
    (hr : o.1.references.Mutual) :
    (b.close c cascaded o).2.keys.Nodup ∧
      ∀ k ∈ (b.close c cascaded o).2.keys, k ∉ (b.close c cascaded o).2.processed := by
  have hnodup : c.path.parts ∉ (rest.map fun c => c.1.path.parts) ∧
      (rest.map fun c => c.1.path.parts).Nodup := by
    have hkeys := h.distinct.1
    rw [Batch.keys, hqueue] at hkeys
    exact List.nodup_cons.1 hkeys
  rw [Batch.keys_close, hqueue, List.tail_cons]
  constructor
  · refine hnodup.2.append (b.nodup_pulled c o hr) fun k hk hpulled => ?_
    obtain ⟨f, hf, rfl⟩ := List.mem_map.1 hpulled
    exact (b.mem_pulled c o hr hf).2.2.2 (h.queued.2 (.inr ((mem_keys hqueue).2 (.inr hk))))
  · intro k hk
    rw [Batch.mem_processed_close, not_or]
    rcases List.mem_append.1 hk with hk | hk
    · exact ⟨fun hhead => hnodup.1 (hhead ▸ hk), h.distinct.2 k ((mem_keys hqueue).2 (.inr hk))⟩
    · obtain ⟨f, hf, rfl⟩ := List.mem_map.1 hk
      obtain ⟨-, hne, hnew, -⟩ := b.mem_pulled c o hr hf
      exact ⟨hne, hnew⟩

/-- Whoever refers to a touched declaration was referring before the visit, or is its file, or is
pulled in. -/
theorem closed_close (hcascade : b.cascade = true) {v : Visit} {found : Handling}
    (hv : v ∈ past ++ [b.visit w p c cascaded]) (hok : v.result = .ok found) {id : NodeId}
    (hid : id ∈ found.seed) {k : List Part}
    (hk : k ∈ (b.visit w p c cascaded).after.project.references.filesOf id) :
    k ∈ (b.visit w p c cascaded).after.batch.queued := by
  have hfollows := p.handle_follows w b.summary c
  have hr := hfollows.keeps h.consistent.referring
  change k ∈ (b.close c cascaded _).1.references.filesOf id at hk
  change k ∈ (b.close c cascaded _).2.queued
  rw [(b.keeps_close c cascaded _).references] at hk
  rw [Batch.mem_queued_close]
  rcases List.mem_append.1 hv with hv | hv
  · left
    rcases hfollows.mem_targets (hr.mem_filesOf.1 hk) with rfl | ht
    · exact h.head_queued hqueue
    · exact h.closed hcascade hv hok id hid k (h.consistent.referring.mem_filesOf.2 ht)
  · obtain rfl := List.mem_singleton.1 hv
    by_cases hseen : k ∈ b.queued
    · exact .inl hseen
    · right
      have hprocessed : k ∉ b.processed := fun hp => hseen (h.queued.2 (.inl hp))
      have hne : k ≠ c.path.parts := fun hhead => hseen (hhead ▸ h.head_queued hqueue)
      exact b.exists_pulled c _ hr hcascade hok hid hk hne hprocessed hseen

theorem pulls_visit {d : Change} (hd : (d, true) ∈ (b.visit w p c cascaded).after.batch.queue)
    (hnew : (d, true) ∉ rest) : (b.visit w p c cascaded).Pulls d := by
  have hr := (p.handle_follows w b.summary c).keeps h.consistent.referring
  have hqueue' : (b.visit w p c cascaded).after.batch.queue = rest ++
      (b.pulled c (p.handle w b.summary c)).map fun f => (.modified f, true) := by
    change (b.close c cascaded _).2.queue = _
    rw [Batch.queue_close, hqueue]
    rfl
  have hmem := hd
  rw [hqueue', List.mem_append] at hmem
  obtain ⟨f, hf, hfd⟩ := List.mem_map.1 (hmem.resolve_left hnew)
  obtain rfl := (Prod.mk.inj hfd).1
  obtain ⟨⟨found, hok, id, hid, hrefers⟩, -, -, hqueued⟩ := b.mem_pulled c _ hr hf
  refine ⟨fun hold => hqueued ?_, hd, found, hok, id, hid, ?_⟩
  · exact h.queued.2 (.inr (List.mem_map.2 ⟨_, hold, rfl⟩))
  · change _ ∈ (b.close c cascaded _).1.references.filesOf id
    rw [(b.keeps_close c cascaded _).references]
    exact ExtTreeMap.mem_iff_isSome_getElem?.2 (Option.isSome_of_eq_some hrefers)

/-- **A visit keeps the invariant.** -/
theorem visit : Tracked (past ++ [b.visit w p c cascaded])
    (b.visit w p c cascaded).after.project (b.visit w p c cascaded).after.batch := by
  have hr := (p.handle_follows w b.summary c).keeps h.consistent.referring
  have hkeeps := b.keeps_close c cascaded (p.handle w b.summary c)
  refine ⟨?_, ?_, ?_, ?_, h.distinct_close hqueue hr, ?_, ?_, ?_, ?_, h.listed_visit⟩
  · exact (h.consistent.handle w b.summary c).congr hkeeps.store hkeeps.references
  · intro k
    change k ∈ (b.close c cascaded _).2.processed ↔ _
    rw [Batch.mem_processed_close, h.processed]
    simp only [List.mem_append, List.mem_singleton, or_and_right, exists_or, exists_eq_left]
    rw [or_comm]
    exact or_congr_right eq_comm
  · have hnew : c.path.parts ∉ past.map (·.change.path.parts) := fun hmem =>
      h.head_new hqueue (h.processed.2 (List.mem_map.1 hmem))
    rw [List.map_append, List.nodup_append_comm]
    exact List.nodup_cons.2 ⟨hnew, h.once⟩
  · intro k
    change k ∈ (b.close c cascaded _).2.queued ↔
      k ∈ (b.close c cascaded _).2.processed ∨ k ∈ (b.close c cascaded _).2.keys
    rw [Batch.mem_queued_close, Batch.mem_processed_close, Batch.keys_close, List.mem_append,
      h.queued, mem_keys hqueue, hqueue, List.tail_cons]
    grind
  · intro hcascade v found hv hok id hid k hk
    exact h.closed_close hqueue ((b.cascade_close c cascaded _).symm.trans hcascade) hv hok hid hk
  · intro d hd
    by_cases hold : (d, true) ∈ rest
    · obtain ⟨u, hu, hpulls⟩ := h.pulled (hqueue ▸ List.mem_cons_of_mem _ hold)
      exact ⟨u, List.mem_append_left _ hu, hpulls⟩
    · exact ⟨_, List.mem_append_right _ List.mem_cons_self, h.pulls_visit hqueue hd hold⟩
  · intro pre v post heq hcascaded
    rcases concat_eq_append_cons heq with ⟨rfl, rfl⟩ | ⟨post, rfl⟩
    · -- The visit at hand was at the head of the queue, so an earlier one pulled it in.
      exact h.pulled (hqueue ▸ hcascaded ▸ List.mem_cons_self)
    · exact h.caused rfl hcascaded
  · intro v found hv hok id
    rcases List.mem_append.1 hv with hv | hv
    · exact h.seeds hv hok id
    · obtain rfl := List.mem_singleton.1 hv
      exact h.seeds_visit hok id

theorem remaining_visit :
    (b.visit w p c cascaded).after.batch.remaining
      (b.visit w p c cascaded).after.project.references < b.remaining p.references :=
  Batch.remaining_close hqueue h.consistent.referring (h.head_queued hqueue)

end Visit

/-- A turn is a visit: no path is passed over. -/
theorem turn_eq_visit (h : Tracked past p b) {p' : Project} {b' : Batch}
    (hturn : b.turn w p = some (p', b')) :
    ∃ c cascaded rest, p.cancelled = false ∧ b.queue = (c, cascaded) :: rest ∧
      b.visit? w p = some (b.visit w p c cascaded) ∧
      p' = (b.visit w p c cascaded).after.project ∧
      b' = (b.visit w p c cascaded).after.batch := by
  have hgoes : ¬ (b.queue = [] ∨ p.cancelled = true) := by
    rw [← Batch.turn_eq_none_iff (w := w), hturn]
    simp
  obtain ⟨hnil, hcancel⟩ := not_or.1 hgoes
  rw [Bool.not_eq_true] at hcancel
  obtain ⟨⟨c, cascaded⟩, rest, hqueue⟩ := List.exists_cons_of_ne_nil hnil
  have hnew := h.head_new hqueue
  rw [Batch.turn_eq_close hqueue hcancel hnew] at hturn
  obtain ⟨hp', hb'⟩ := Prod.mk.inj (Option.some.inj hturn)
  exact ⟨c, cascaded, rest, hcancel, hqueue, Batch.visit?_eq_some hqueue hcancel hnew,
    hp'.symm, hb'.symm⟩

end Tracked

/-! ## Whole batches -/

/-- **What every visit keeps holds at the end of a batch**, beside the invariant. -/
theorem Project.processChanges_visits (w : World) {p : Project} (hp : p.Consistent)
    (changes : List Change) (cascade : Bool) {J : List Visit → Project → Batch → Prop}
    (hbegin : J [] (p.begin changes cascade).1 (p.begin changes cascade).2)
    (hvisit : ∀ {past p b c cascaded rest}, Tracked past p b → J past p b → p.cancelled = false →
      b.queue = (c, cascaded) :: rest → J (past ++ [b.visit w p c cascaded])
        (b.visit w p c cascaded).after.project (b.visit w p c cascaded).after.batch) :
    ∃ q b, Tracked (p.visits w changes cascade) q b ∧ J (p.visits w changes cascade) q b ∧
      (b.queue = [] ∨ q.cancelled = true) ∧
      p.processChanges w changes cascade = (b.next w q).1.finish w (b.next w q).2.1 := by
  have hturn : ∀ {past p b p' b'}, Tracked past p b ∧ J past p b → b.turn w p = some (p', b') →
      (Tracked (past ++ (b.visit? w p).toList) p' b' ∧ J (past ++ (b.visit? w p).toList) p' b') ∧
        b'.remaining p'.references < b.remaining p.references := by
    rintro past p b p' b' ⟨ht, hJ⟩ hturn
    obtain ⟨c, cascaded, rest, hcancel, hqueue, hvisit?, rfl, rfl⟩ := ht.turn_eq_visit hturn
    rw [hvisit?]
    exact ⟨⟨ht.visit hqueue, hvisit ht hJ hcancel hqueue⟩, ht.remaining_visit hqueue⟩
  obtain ⟨q, b, ⟨ht, hJ⟩, hend, hrun⟩ := Batch.runWithin_visits
    (I := fun past p b => Tracked past p b ∧ J past p b)
    (m := fun p b => b.remaining p.references) hturn ⟨Tracked.begin hp changes cascade, hbegin⟩
    (Batch.remaining_lt_bound _ _)
  refine ⟨q, b, ht, hJ, Batch.turn_eq_none_iff.1 hend, ?_⟩
  unfold Project.processChanges Batch.run
  dsimp only
  rw [hrun]

theorem Batch.queue_eq_nil {w : World} {p : Project} {b : Batch}
    (hend : b.queue = [] ∨ p.cancelled = true)
    (hfull : ((b.next w p).1.finish w (b.next w p).2.1).2.cancelled = false) : b.queue = [] := by
  by_contra hne
  obtain ⟨⟨c, cascaded⟩, rest, hqueue⟩ := List.exists_cons_of_ne_nil hne
  have hcancel := hend.resolve_left hne
  rw [(Project.files_finish w _ _).2.2] at hfull
  simp [next, hqueue, hcancel] at hfull

/-- **The cascade is complete and not excessive**, from every project that batches lead to and
whatever the collaborators do. The files of a batch are those of its visits. At the end of a batch
that was not stopped, whoever refers to a declaration that a visit took out or put in was visited
too. Whoever was pulled in was put in the queue by an earlier visit, as it referred to a declaration
that this visit had taken out or put in. -/
theorem Regime.Live.cascade_closed {p : Project} (h : Regime.any.Live p) (w : World)
    (changes : List Change) (hfull : (p.processChanges w changes true).2.cancelled = false) :
    let last := (p.processChanges w changes true).1
    let summary := (p.processChanges w changes true).2
    let visits := p.visits w changes true
    (summary.updatedFiles ++ summary.failedFiles).Perm (visits.map (·.change.path)) ∧
    summary.cascadedFiles =
      (visits.filter fun v => v.cascaded && v.succeeded).map (·.change.path) ∧
    (∀ v ∈ visits, ∀ found, v.result = .ok found →
      (∀ id, id ∈ found.seed ↔ v.Removes id ∨ id ∈ found.output.nodes.map Node.id) ∧
      ∀ id ∈ found.seed, ∀ k ∈ last.references.filesOf id,
        ∃ f ∈ summary.updatedFiles ++ summary.failedFiles, f.parts = k) ∧
    ∀ pre v post, visits = pre ++ v :: post → v.cascaded = true → ∃ u ∈ pre, u.Pulls v.change := by
  obtain ⟨q, b, ht, hcascade, hend, hprocess⟩ := Project.processChanges_visits w h.consistent
    changes true (J := fun _ _ b => b.cascade = true) rfl
    fun {_ p b c cascaded _} _ hc _ _ =>
      (b.cascade_close c cascaded (p.handle w b.summary c)).trans hc
  rw [hprocess] at hfull
  have hnil := Batch.queue_eq_nil hend hfull
  have hnext : b.next w q = (q, b, .finished) := by rw [Batch.next, hnil]
  have hlisted : Visit.listed (p.visits w changes true) = b.summary.files := ht.listed.symm
  obtain ⟨hstored, hcascaded, -⟩ := Project.files_finish w q b
  have hperm := Visit.perm_listed (p.visits w changes true)
  rw [hlisted] at hperm
  replace hperm := hstored.trans hperm
  rw [hprocess, hnext]
  refine ⟨hperm, ?_, fun v hv found hok => ⟨ht.seeds hv hok, fun id hid k hk => ?_⟩,
    fun pre v post => ht.caused⟩
  · exact hcascaded.trans (congrArg (fun l => l.2.1) hlisted).symm
  · rw [(Project.keeps_finish w q b).references] at hk
    have hqueued := ht.closed hcascade hv hok id hid k hk
    have hkeys : k ∉ b.keys := by simp [Batch.keys, hnil]
    obtain ⟨u, hu, hparts⟩ := ht.processed.1 ((ht.queued.1 hqueued).resolve_right hkeys)
    exact ⟨_, hperm.mem_iff.2 (List.mem_map_of_mem hu), hparts⟩

/-- Two files that were indexed, of which one refers to the other. -/
def Project.indexedTwo : Project :=
  ((Assignment.index [⟨"a.cs"⟩, ⟨"b.cs"⟩]).apply losesA Project.unread).1

/-- One of the files is deleted: the other is pulled in, and fails. -/
theorem Regime.Live.cascade_closed_deleted :
    Regime.any.Live Project.indexedTwo ∧
    (Project.indexedTwo.processChanges losesA [.deleted ⟨"a.cs"⟩] true).2.cancelled = false ∧
    (Project.indexedTwo.processChanges losesA [.deleted ⟨"a.cs"⟩] true).2.failedFiles =
      [⟨"b.cs"⟩] ∧
    ∀ pre v post, Project.indexedTwo.visits losesA [.deleted ⟨"a.cs"⟩] true = pre ++ v :: post →
      v.cascaded = true → ∃ u ∈ pre, u.Pulls v.change := by
  have hlive : Regime.any.Live Project.indexedTwo :=
    .done (.start (.inl Project.fresh_unread)) trivial trivial
  exact ⟨hlive, by decide +kernel, by decide +kernel,
    (Regime.Live.cascade_closed hlive losesA [.deleted ⟨"a.cs"⟩] (by decide +kernel)).2.2.2⟩

end CodeGraph

import CodeGraph.Proofs.Update.Cascade

/-!
# The end of a batch

The queue of a batch grows while it is worked off. A file is put in it only if it refers to
something and was never in it before, and no file comes to refer to something unless it was in it:
so the files that can still come are counted off, and the batch ends by itself, whatever the
collaborators do.

* `Batch.runWithin_settles`, `Tracked.runWithin_settles`: with enough fuel its amount plays no part.
* `Assignment.Ends`, `Assignment.ends_apply`: a batch that came to its end.
* **`Project.Consistent.ends_within`**: the main statement.
-/

namespace CodeGraph

/-! ## Runs without regard to fuel -/

namespace Batch

theorem next_of_turn_eq_none {w : World} {b : Batch} {p : Project} (h : b.turn w p = none) :
    (b.next w p).2.2 = .finished := by
  unfold turn at h
  rcases hnext : b.next w p with ⟨p', b', _ | _ | f⟩
  · rfl
  · simp [hnext] at h
  · simp [hnext] at h

/-- If every turn keeps `I` and takes from a measure, all runs with enough fuel end in the same way,
where the batch is over. -/
theorem runWithin_settles {w : World} {I : Project → Batch → Prop} {m : Project → Batch → Nat}
    (hturn : ∀ {p b p' b'}, I p b → b.turn w p = some (p', b') → I p' b' ∧ m p' b' < m p b)
    {p : Project} {b : Batch} (h : I p b) :
    ∃ (q : Project) (c : Batch) (q' : Project) (c' : Batch), c.next w q = (q', c', .finished) ∧
      ∀ fuel, m p b < fuel → runWithin w (fun _ => false) fuel b p = (q', c', .ended) := by
  induction hn : m p b using Nat.strong_induction_on generalizing p b with
  | _ n ih =>
    cases ht : b.turn w p with
    | none =>
      refine ⟨p, b, _, _, Prod.ext rfl (Prod.ext rfl (next_of_turn_eq_none ht)), ?_⟩
      intro fuel hfuel
      obtain ⟨fuel, rfl⟩ := Nat.exists_eq_add_one_of_ne_zero (Nat.ne_zero_of_lt hfuel)
      rw [runWithin_eq_turn, ht]
    | some next =>
      obtain ⟨hI, hlt⟩ := hturn h ht
      obtain ⟨q, c, q', c', hend, hrun⟩ := ih _ (hn ▸ hlt) hI rfl
      refine ⟨q, c, q', c', hend, fun fuel hfuel => ?_⟩
      obtain ⟨fuel, rfl⟩ := Nat.exists_eq_add_one_of_ne_zero (Nat.ne_zero_of_lt hfuel)
      rw [runWithin_eq_turn, ht]
      exact hrun fuel (by omega)

end Batch

theorem Tracked.runWithin_settles {w : World} {past : List Visit} {p : Project} {b : Batch}
    (h : Tracked past p b) :
    ∃ (q : Project) (c : Batch) (q' : Project) (c' : Batch), c.next w q = (q', c', .finished) ∧
      ∀ fuel, b.remaining p.references < fuel →
        Batch.runWithin w (fun _ => false) fuel b p = (q', c', .ended) := by
  refine Batch.runWithin_settles (I := fun p b => ∃ past, Tracked past p b)
    (m := fun p b => b.remaining p.references) ?_ ⟨past, h⟩
  rintro p b p' b' ⟨past, h⟩ hturn
  obtain ⟨c, cascaded, rest, -, hqueue, -, rfl, rfl⟩ := h.turn_eq_visit hturn
  exact ⟨⟨_, h.visit hqueue⟩, h.remaining_visit hqueue⟩

/-! ## Batches that came to their end -/

/-- A batch comes to its end: from its first moment on somebody may have asked it to stop, and at
last there is no file that it goes on with. -/
def Assignment.Ends (w : World) (p : Project) (task : Assignment) (q : Project) (b : Batch) :
    Prop :=
  ∃ m, Moment.Steps w (task.first p) m ∧ m.awaited = none ∧
    m.batch.next w m.project = (q, b, .finished)

theorem Batch.steps_turn {w : World} {b b' : Batch} {p p' : Project}
    (h : b.turn w p = some (p', b')) : Moment.Steps w ⟨p, b, none⟩ ⟨p', b', none⟩ := by
  unfold turn at h
  rcases hnext : b.next w p with ⟨q, c, _ | _ | f⟩
  · simp [hnext] at h
  · simp only [hnext, Option.some.injEq, Prod.mk.injEq] at h
    obtain ⟨rfl, rfl⟩ := h
    exact .single (.handled hnext)
  · simp only [hnext, Option.some.injEq] at h
    have hasked := Moment.Step.asked hnext
    have hanswered := @Moment.Step.answered w (ask w q f).1 c f (ask w q f).2.2
    rw [h] at hanswered
    exact .head hasked (.single hanswered)

theorem Assignment.ends_apply {p : Project} (hp : p.Consistent) (w : World) (task : Assignment) :
    ∃ q b, task.Ends w p q b ∧ task.apply w p = q.finish w b := by
  have hrun : ∀ changes cascade, ∃ q b,
      (∃ m, Moment.Steps w ⟨(p.begin changes cascade).1, (p.begin changes cascade).2, none⟩ m ∧
        m.awaited = none ∧ m.batch.next w m.project = (q, b, .finished)) ∧
      p.processChanges w changes cascade = q.finish w b := by
    intro changes cascade
    obtain ⟨q, b, -, hsteps, hend, hprocess⟩ := Project.processChanges_visits w hp changes cascade
      (J := fun _ q b => Moment.Steps w
        ⟨(p.begin changes cascade).1, (p.begin changes cascade).2, none⟩ ⟨q, b, none⟩) .refl
      fun {_ q b c cascaded rest} ht hsteps hcancel hqueue =>
        hsteps.trans (Batch.steps_turn (Batch.turn_eq_close hqueue hcancel (ht.head_new hqueue)))
    have hfinished := Batch.next_of_turn_eq_none (w := w) (Batch.turn_eq_none_iff.2 hend)
    exact ⟨_, _, ⟨_, hsteps, rfl, Prod.ext rfl (Prod.ext rfl hfinished)⟩, hprocess⟩
  cases task with
  | process changes cascade => exact hrun changes cascade
  | update paths => exact hrun (paths.map .modified) p.config.cascade
  | index paths => exact hrun (paths.map .created) false

/-! ## The main statement -/

theorem Batch.summary_next {w : World} {b : Batch} {p : Project}
    (hend : b.queue = [] ∨ p.cancelled = true) :
    ∃ stopped, (b.next w p).2.1.summary = { b.summary with cancelled := stopped } := by
  unfold next
  split
  · exact ⟨b.summary.cancelled, rfl⟩
  · next hqueue =>
    have hcancel : p.cancelled = true := hend.resolve_left (by simp [hqueue])
    exact ⟨true, by rw [if_pos hcancel]⟩

/-- **A batch ends, and visits each file at most once**, in every consistent project and whatever
the collaborators do. With fuel for as many files as were settled on and as refer to something at
the beginning, the loop leaves by itself, and more fuel changes nothing. No path is visited twice,
and there are no more visits than that; the files of the summary are the visited ones. -/
theorem Project.Consistent.ends_within {p : Project} (hp : p.Consistent) (w : World)
    (changes : List Change) (cascade : Bool) :
    let start := p.begin changes cascade
    let limit := (settle (changes.map (normalizeChange p.root))).length + p.references.fileCount
    let visits := p.visits w changes cascade
    let summary := (p.processChanges w changes cascade).2
    (∃ (q : Project) (b : Batch) (q' : Project) (b' : Batch), b.next w q = (q', b', .finished) ∧
      ∀ fuel, limit < fuel →
        Batch.runWithin w (fun _ => false) fuel start.2 start.1 = (q', b', .ended)) ∧
    (visits.map fun v => v.change.path.parts).Nodup ∧
    visits.length ≤ limit ∧
    (summary.updatedFiles ++ summary.failedFiles).Perm (visits.map (·.change.path)) := by
  intro start limit visits summary
  have hlimit : start.2.remaining start.1.references ≤ limit := by
    have hbound := start.2.remaining_lt_bound start.1
    have hlength : start.2.queue.length =
        (settle (changes.map (normalizeChange p.root))).length := List.length_map ..
    have hfiles : start.1.references.fileCount = p.references.fileCount := rfl
    unfold Batch.bound at hbound
    omega
  -- What was visited and what is left to be visited never exceed the limit together.
  obtain ⟨q, b, ht, hcount, hend, hprocess⟩ := processChanges_visits w hp changes cascade
    (J := fun past q b => past.length + b.remaining q.references ≤ limit)
    (by simpa using hlimit)
    fun {past q b c cascaded rest} ht hcount _ hqueue => by
      have hless := ht.remaining_visit (w := w) hqueue
      rw [List.length_append, List.length_singleton]
      omega
  refine ⟨?_, ht.once, (Nat.le_add_right _ _).trans hcount, ?_⟩
  · obtain ⟨q, b, q', b', hfinished, hrun⟩ :=
      (Tracked.begin hp changes cascade).runWithin_settles (w := w)
    exact ⟨q, b, q', b', hfinished, fun fuel hfuel => hrun fuel (hlimit.trans_lt hfuel)⟩
  · have hperm := Visit.perm_listed visits
    rw [← ht.listed] at hperm
    obtain ⟨stopped, hsummary⟩ := Batch.summary_next (w := w) hend
    have hfinish := (files_finish w (b.next w q).1 (b.next w q).2.1).1
    rw [hsummary, ← hprocess] at hfinish
    exact hfinish.trans hperm

/-- An analyzer that finds `a.cs` and `b.cs` to call each other. -/
def callsEachOther : World where
  analyze _ r :=
    { outcome := .ok
        { nodes := [.ofFile r.path]
          edges := [.ofCall r.path (if r.path.text = "a.cs" then ⟨"b.cs"⟩ else ⟨"a.cs"⟩)] } }
  refusal? _ _ := none

/-- A project after both files were indexed. -/
def Project.indexedCycle : Project :=
  ((Assignment.index [⟨"a.cs"⟩, ⟨"b.cs"⟩]).apply callsEachOther Project.unread).1

theorem Regime.Live.indexedCycle : Regime.any.Live Project.indexedCycle :=
  .done (.start (.inl Project.fresh_unread)) trivial trivial

/-- One of the files is modified: the other is pulled in, and would pull the first one in again. -/
theorem Project.Consistent.ends_within_cycle :
    Project.indexedCycle.Consistent ∧ Project.indexedCycle.references.fileCount = 2 ∧
    (Project.indexedCycle.processChanges callsEachOther [.modified ⟨"a.cs"⟩] true).2.updatedFiles =
      [⟨"a.cs"⟩, ⟨"b.cs"⟩] ∧
    ((Project.indexedCycle.visits callsEachOther [.modified ⟨"a.cs"⟩] true).map
      fun v => v.change.path.parts).Nodup := by
  have hp := Regime.Live.indexedCycle.consistent
  exact ⟨hp, by decide +kernel, by decide +kernel,
    (Project.Consistent.ends_within hp callsEachOther [.modified ⟨"a.cs"⟩] true).2.1⟩

end CodeGraph

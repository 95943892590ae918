import CodeGraph.Proofs.Update.Effect

/-!
# The files of a batch in its summary and its notices

A file that is taken out of the queue is at hand until its analysis is done, and then it is listed,
as updated or as failed. So the paths that were taken are the listed ones and the one at hand, each
once. A notice is published with each failure, and with nothing else up to the end of the batch. The
last flush can only move files from one list to the other, with a notice for each.

* `Project.events_removeStale`, `Project.events_respond`: work on a file publishes nothing.
* `Booked`: the lists of a batch, in its middle.
* `Moment.Step.booked`, `Moment.Steps.booked`: every step keeps the books, and a whole run.
* `Project.closingFlush`, `Project.flushBatch_of_error`, `Project.published_finish`: the end of a
  batch.
* **`Assignment.Ends.lists_once`**: the main statement.
-/

namespace CodeGraph

open Std

/-! ## Work on a file publishes nothing -/

namespace Project

theorem events_removeStale (w : World) (paths : List Path) (p : Project) (s : Summary) :
    (Batch.removeStale w paths p s).1.events = p.events :=
  removeStale_apart (g := events) (fun _ _ _ _ => rfl) w p (fun _ _ => rfl) paths s

theorem events_respond (w : World) (p : Project) (s : Summary) (f : InFlight) (reply : Reply) :
    (p.respond w s f reply).1.events = p.events :=
  respond_apart (g := events) (fun _ _ _ _ => rfl) w p (fun _ => rfl) (fun _ _ _ _ => rfl) s f reply

end Project

/-! ## The lists of a batch in its middle -/

namespace Batch

theorem succeed_eq_enqueue {r : References} (hr : r.Mutual) (b : Batch) (path : Path)
    (cascaded : Bool) (seed : List NodeId) :
    ∃ files, (∀ f ∈ files, f.parts ∉ b.queued) ∧ b.succeed r path cascaded seed =
      { b with summary := b.summary.withUpdated path cascaded }.enqueue files := by
  cases hc : b.cascade with
  | true =>
    exact ⟨_, fun f hf => (mem_dependents hr hf).2.2, by simp only [succeed, hc, if_true]; rfl⟩
  | false => exact ⟨[], by simp, by simp [succeed, hc, enqueue, Summary.withUpdated]⟩

/-- The paths that were taken out of the queue: those that are listed, and the one at hand. -/
def listed (b : Batch) (hand : Option (Path × Bool)) : List (List Part) :=
  (b.summary.updatedFiles ++ b.summary.failedFiles ++ (hand.map Prod.fst).toList).map Path.parts

end Batch

/-- The middle of a batch that began with the paths `first`, when the notices `before` had been
published. The file at hand goes with whether it was pulled in. -/
structure Booked (first : List (List Part)) (before : List UpdateEvent)
    (hand : Option (Path × Bool)) (events : List UpdateEvent) (b : Batch) : Prop where
  once : (b.listed hand).Nodup
  processed : ∀ {k}, k ∈ b.processed ↔ k ∈ b.listed hand
  queued : ∀ k ∈ first, k ∈ b.queued
  reached : b.summary.cancelled = false → ∀ k ∈ first, k ∈ b.processed ∨ k ∈ b.keys
  foreign : ∀ {c}, (c, true) ∈ b.queue → c.path.parts ∉ first
  held : ∀ {f}, hand = some (f, true) → f.parts ∉ first
  cascaded : ∀ f ∈ b.summary.cascadedFiles, f ∈ b.summary.updatedFiles ∧ f.parts ∉ first
  published : ∃ failures : List (Path × Error), failures.map Prod.fst = b.summary.failedFiles ∧
    events = before ++ failures.map fun f => .failed f.1 f.2

namespace Booked

variable {first : List (List Part)} {before events : List UpdateEvent} {b : Batch}

section Queue

variable {c : Change} {cascaded : Bool} {rest : List (Change × Bool)}
  (hqueue : b.queue = (c, cascaded) :: rest)
include hqueue

theorem take (h : Booked first before none events b) (hnew : c.path.parts ∉ b.processed) :
    Booked first before (some (c.path, cascaded)) events (b.taken c.path b.summary) := by
  have hlisted : (b.taken c.path b.summary).listed (some (c.path, cascaded)) =
      b.listed none ++ [c.path.parts] := by
    simp [Batch.listed, Batch.taken]
  have htail : (b.taken c.path b.summary).queue = rest := congrArg List.tail hqueue
  refine ⟨?_, ?_, h.queued, ?_, ?_, ?_, h.cascaded, h.published⟩
  · rw [hlisted, List.nodup_append_comm]
    exact List.nodup_cons.2 ⟨fun hmem => hnew (h.processed.2 hmem), h.once⟩
  · intro k
    rw [Batch.mem_processed_taken, hlisted, List.mem_append, List.mem_singleton, h.processed,
      or_comm]
  · intro hnot k hk
    rw [Batch.mem_processed_taken]
    rcases h.reached hnot k hk with hk | hk
    · exact .inl (.inr hk)
    · rcases (Batch.mem_keys_taken hqueue b.summary).1 hk with rfl | hk
      · exact .inl (.inl rfl)
      · exact .inr hk
  · intro d hd
    rw [htail] at hd
    exact h.foreign (hqueue ▸ List.mem_cons_of_mem _ hd)
  · intro f hhand
    obtain ⟨rfl, rfl⟩ := Prod.mk.inj (Option.some.inj hhand)
    exact h.foreign (hqueue ▸ List.mem_cons_self)

/-- A path that was taken before is passed over. -/
theorem pass (h : Booked first before none events b) (hold : c.path.parts ∈ b.processed) :
    Booked first before none events { b with queue := rest } where
  once := h.once
  processed := h.processed
  queued := h.queued
  reached hnot k hk := by
    refine (h.reached hnot k hk).elim .inl fun hkeys => ?_
    rw [Batch.keys, hqueue, List.map_cons, List.mem_cons] at hkeys
    exact hkeys.imp_left fun heq : k = c.path.parts => heq ▸ hold
  foreign hd := h.foreign (hqueue ▸ List.mem_cons_of_mem _ hd)
  held := h.held
  cascaded := h.cascaded
  published := h.published

theorem stop (h : Booked first before none events b) : Booked first before none events
    { b with queue := rest, summary := { b.summary with cancelled := true } } where
  once := h.once
  processed := h.processed
  queued := h.queued
  reached hnot := by cases hnot
  foreign hd := h.foreign (hqueue ▸ List.mem_cons_of_mem _ hd)
  held := h.held
  cascaded := h.cascaded
  published := h.published

end Queue

section Hand

variable {f : Path} {cascaded : Bool} (h : Booked first before (some (f, cascaded)) events b)
include h

theorem fail (p : Project) (e : Error) :
    Booked first before none (events ++ [.failed f e]) (b.fail p f e).2 := by
  have hlisted : ((b.fail p f e).2.listed none) = b.listed (some (f, cascaded)) := by
    simp [Batch.listed, Batch.fail]
  obtain ⟨failures, hfailed, hevents⟩ := h.published
  refine ⟨?_, ?_, h.queued, h.reached, h.foreign, by simp, h.cascaded, failures ++ [(f, e)], ?_, ?_⟩
  · rw [hlisted]
    exact h.once
  · rw [hlisted]
    exact h.processed
  · simp [Batch.fail, hfailed]
  · simp [hevents]

/-- The file at hand was updated. What it pulls in is new to the batch. -/
theorem succeed {r : References} (hr : r.Mutual) (seed : List NodeId) :
    Booked first before none events (b.succeed r f cascaded seed) := by
  obtain ⟨files, hfiles, hsucceed⟩ := b.succeed_eq_enqueue hr f cascaded seed
  have hlisted : ((b.succeed r f cascaded seed).listed none).Perm
      (b.listed (some (f, cascaded))) := by
    simp only [hsucceed, Batch.listed, Batch.enqueue, Summary.withUpdated, Option.map_some,
      Option.map_none, Option.toList_some, Option.toList_none, List.append_nil, List.append_assoc]
    exact (List.perm_append_comm.append_left _).map _
  have hkeys : ∀ {k}, k ∈ b.keys → k ∈ (b.succeed r f cascaded seed).keys := by
    intro k hk
    rw [hsucceed, Batch.keys, Batch.enqueue, List.map_append]
    exact List.mem_append_left _ hk
  rw [hsucceed] at hlisted hkeys ⊢
  refine ⟨hlisted.nodup_iff.2 h.once, ?_, ?_, ?_, ?_, by simp, ?_, h.published⟩
  · intro k
    rw [hlisted.mem_iff]
    exact h.processed
  · intro k hk
    exact Batch.mem_queued_enqueue.2 (.inl (h.queued k hk))
  · exact fun hnot k hk => (h.reached hnot k hk).imp_right hkeys
  · intro c hc
    rcases List.mem_append.1 hc with hc | hc
    · exact h.foreign hc
    · obtain ⟨g, hg, heq⟩ := List.mem_map.1 hc
      obtain rfl := (Prod.mk.inj heq).1
      exact fun hmem => hfiles g hg (h.queued _ hmem)
  · intro g hg
    rcases List.mem_append.1 hg with hg | hg
    · exact ⟨List.mem_append_left _ (h.cascaded g hg).1, (h.cascaded g hg).2⟩
    · cases cascaded with
      | true =>
        obtain rfl := List.mem_singleton.1 hg
        exact ⟨List.mem_append_right _ List.mem_cons_self, h.held rfl⟩
      | false => simp at hg

theorem files {s : Summary} (hs : s.files = b.summary.files) :
    Booked first before (some (f, cascaded)) events { b with summary := s } := by
  obtain ⟨hu, hs⟩ := Prod.mk.inj hs
  obtain ⟨hc, hs⟩ := Prod.mk.inj hs
  obtain ⟨hf, hcancelled⟩ := Prod.mk.inj hs
  have hlisted : Batch.listed { b with summary := s } (some (f, cascaded)) =
      b.listed (some (f, cascaded)) := by
    simp [Batch.listed, hu, hf]
  refine ⟨?_, ?_, h.queued, fun hnot => h.reached (hcancelled ▸ hnot), h.foreign, h.held, ?_, ?_⟩
  · rw [hlisted]
    exact h.once
  · rw [hlisted]
    exact h.processed
  · change ∀ f ∈ s.cascadedFiles, f ∈ s.updatedFiles ∧ _
    rw [hc, hu]
    exact h.cascaded
  · change ∃ failures : List (Path × Error), failures.map Prod.fst = s.failedFiles ∧ _
    rw [hf]
    exact h.published

end Hand

end Booked

namespace Moment

/-- The file that was taken out of the queue and is not done, and whether it was pulled in. -/
def hand (m : Moment) : Option (Path × Bool) :=
  m.awaited.map fun a => (a.1.change.path, a.1.cascaded)

/-- The books at a moment. -/
def Booked (first : List (List Part)) (before : List UpdateEvent) (m : Moment) : Prop :=
  CodeGraph.Booked first before m.hand m.project.events m.batch

variable {w : World} {first : List (List Part)} {before : List UpdateEvent} {m m' : Moment}

/-- The old data of the next file is removed, as far as possible. -/
theorem Booked.taken {p q : Project} {b : Batch} {c : Change} {cascaded : Bool}
    {rest : List (Change × Bool)} {s : Summary} {r : Except Error (List NodeId × List Edge)}
    (h : Booked first before ⟨p, b, none⟩) (hqueue : b.queue = (c, cascaded) :: rest)
    (hnew : c.path.parts ∉ b.processed)
    (hstale : Batch.removeStale w c.places p b.summary = (q, s, r)) :
    CodeGraph.Booked first before (some (c.path, cascaded)) q.events (b.taken c.path s) := by
  have hevents := Project.events_removeStale w c.places p b.summary
  have hfiles := Project.files_removeStale w c.places p b.summary
  rw [hstale] at hevents hfiles
  rw [hevents]
  exact (CodeGraph.Booked.take hqueue h hnew).files hfiles

theorem Booked.responded {p q : Project} {b : Batch} {f : InFlight} {reply : Reply} {s : Summary}
    {r : Except Error Handling} (h : Booked first before ⟨p, b, some (f, reply)⟩)
    (hrespond : p.respond w b.summary f reply = (q, s, r)) :
    CodeGraph.Booked first before (some (f.change.path, f.cascaded)) q.events
      { b with summary := s } := by
  have hevents := p.events_respond w b.summary f reply
  have hfiles := p.files_respond w b.summary f reply
  rw [hrespond] at hevents hfiles
  rw [hevents]
  exact CodeGraph.Booked.files h hfiles

/-- **Every step keeps the books.** -/
theorem Step.booked (hs : Step w m m') (hm : m.project.Consistent)
    (h : m.Booked first before) : m'.Booked first before := by
  have hm' := hs.consistent hm
  cases hs.effect with
  | drained => exact h
  | stopped hqueue _ => exact CodeGraph.Booked.stop hqueue h
  | passed hqueue _ hold => exact CodeGraph.Booked.pass hqueue h hold
  | @refused p b c cascaded rest q s e hqueue _ hnew hstale =>
    exact (h.taken hqueue hnew hstale).fail q e
  | gone hqueue _ hnew hstale _ => exact (h.taken hqueue hnew hstale).succeed hm'.referring _
  | @asked p b c cascaded rest q s seed orphaned hqueue _ hnew hstale _ =>
    exact Booked.taken (q := q) h hqueue hnew hstale
  | @failed p b f reply q s e hrespond => exact (h.responded hrespond).fail q e
  | answered hrespond => exact (h.responded hrespond).succeed hm'.referring _
  | cancelled => exact h

theorem Steps.booked (hs : Steps w m m') (hm : m.project.Consistent)
    (h : m.Booked first before) : m'.Booked first before := by
  induction hs with
  | refl => exact h
  | tail hsteps hs ih => exact hs.booked (Steps.consistent hsteps hm) ih

end Moment

/-- The paths of the settled changes of an assignment, by their parts. -/
def Assignment.settledParts (p : Project) (task : Assignment) : List (List Part) :=
  (settle (task.changes.map (Project.normalizeChange p.root))).map fun c => c.path.parts

theorem Assignment.booked_first (p : Project) (task : Assignment) :
    (task.first p).Booked (task.settledParts p) p.events := by
  have hkeys : (task.first p).batch.keys = task.settledParts p := by
    simp [Batch.keys, Assignment.first, Project.begin, settledParts]
  refine ⟨List.nodup_nil, by simp [first, Project.begin, Batch.listed, Moment.hand], ?_, ?_, ?_, ?_,
    by simp [first, Project.begin], [], rfl, (List.append_nil _).symm⟩
  · intro k hk
    change k ∈ List.foldl _ _ _
    exact (Batch.mem_foldl_insert (fun c : Change => c.path.parts) _ _).2 (.inr hk)
  · exact fun _ k hk => .inr (hkeys ▸ hk)
  · intro c hc
    simp [first, Project.begin] at hc
  · intro f hf
    cases hf

/-! ## The end of a batch -/

namespace Project

/-- The last flush of a batch. -/
def closingFlush (w : World) (p : Project) : Project × Except Cause Unit :=
  p.call w .flush (withDisk fun r d => r.flushWith w.refusesStep d w.now)

theorem finish_eq (w : World) (p : Project) (b : Batch) :
    (p.finish w b).2 = (p.flushBatch w b.summary).2 ∧ (p.finish w b).1.events =
      (p.flushBatch w b.summary).1.events ++
        if (p.flushBatch w b.summary).2.updatedFiles = [] ∧
            (p.flushBatch w b.summary).2.failedFiles = [] then []
        else [.completed (p.flushBatch w b.summary).2] := by
  unfold finish Summary.isEmpty
  simp only [Bool.and_eq_true, List.isEmpty_iff]
  refine ⟨trivial, ?_⟩
  split
  · exact (List.append_nil _).symm
  · rfl

theorem events_failAll (p : Project) (s : Summary) (cause : Cause) :
    (p.failAll s cause).1.events =
      p.events ++ s.updatedFiles.map fun f => .failed f (.persistence f cause) := by
  have hfold : ∀ (files : List Path) (p : Project),
      (files.foldl (fun p f => p.publish (.failed f (.persistence f cause))) p).events =
        p.events ++ files.map fun f => .failed f (.persistence f cause) := by
    intro files
    induction files with
    | nil => exact fun p => (List.append_nil _).symm
    | cons file files ih => exact fun p => (ih _).trans (List.append_assoc ..)
  exact hfold s.updatedFiles p

theorem events_closingFlush (w : World) (p : Project) :
    (p.closingFlush w).1.events = p.events :=
  call_apart (g := events) (fun _ _ _ _ => rfl) w p .flush fun _ => rfl

theorem flushBatch_eq (w : World) (p : Project) (s : Summary) :
    p.flushBatch w s = if s.updatedFiles.isEmpty then (p, s) else
      match p.closingFlush w with
      | (p, .ok ()) => (p, s)
      | (p, .error cause) => p.failAll s cause := rfl

theorem flushBatch_of_ok {w : World} {p : Project} (s : Summary)
    (h : (p.closingFlush w).2 = .ok ()) :
    (p.flushBatch w s).2 = s ∧ (p.flushBatch w s).1.events = p.events := by
  have hevents := p.events_closingFlush w
  rw [flushBatch_eq]
  split
  · exact ⟨rfl, rfl⟩
  · rcases hflush : p.closingFlush w with ⟨q, e | _⟩
    · rw [hflush] at h
      cases h
    · rw [hflush] at hevents
      exact ⟨rfl, hevents⟩

/-- If the last flush fails no file counts as updated, and each one that did has failed. -/
theorem flushBatch_of_error {w : World} {p : Project} (s : Summary) {cause : Cause}
    (h : (p.closingFlush w).2 = .error cause) :
    (p.flushBatch w s).2 =
        { s with updatedFiles := [], failedFiles := s.failedFiles ++ s.updatedFiles } ∧
      (p.flushBatch w s).1.events =
        p.events ++ s.updatedFiles.map fun f => .failed f (.persistence f cause) := by
  have hevents := p.events_closingFlush w
  rw [flushBatch_eq]
  split
  · next hnone =>
    rw [List.isEmpty_iff] at hnone
    simp only [hnone, List.append_nil, List.map_nil, and_true]
    rw [← hnone]
  · rcases hflush : p.closingFlush w with ⟨q, e | _⟩
    · rw [hflush] at h hevents
      obtain rfl := Except.error.inj h
      exact ⟨rfl, (events_failAll q s e).trans (congrArg (· ++ _) hevents)⟩
    · rw [hflush] at h
      cases h

/-- If there was a notice for each failed file before the end of a batch, there is one for each
afterwards, and then the one that the batch is over. -/
theorem published_finish (w : World) {p : Project} {b : Batch} {before : List UpdateEvent}
    (h : ∃ failures : List (Path × Error), failures.map Prod.fst = b.summary.failedFiles ∧
      p.events = before ++ failures.map fun f => .failed f.1 f.2) :
    ∃ failures : List (Path × Error), failures.map Prod.fst = (p.finish w b).2.failedFiles ∧
      (p.finish w b).1.events = before ++ failures.map (fun f => .failed f.1 f.2) ++
        if (p.finish w b).2.updatedFiles = [] ∧ (p.finish w b).2.failedFiles = [] then [] else
          [.completed (p.finish w b).2] := by
  obtain ⟨failures, hfailed, hpublished⟩ := h
  obtain ⟨hsummary, hevents⟩ := finish_eq w p b
  rw [← hsummary] at hevents
  cases hflush : (p.closingFlush w).2 with
  | ok =>
    obtain ⟨hsame, hnone⟩ := flushBatch_of_ok b.summary hflush
    rw [hnone, hpublished] at hevents
    refine ⟨failures, ?_, hevents⟩
    rw [hsummary, hsame, hfailed]
  | error cause =>
    obtain ⟨hmoved, hnotices⟩ := flushBatch_of_error b.summary hflush
    rw [hnotices, hpublished, List.append_assoc before] at hevents
    refine ⟨failures ++ b.summary.updatedFiles.map fun f => (f, .persistence f cause), ?_, ?_⟩
    · rw [hsummary, hmoved, List.map_append, hfailed, List.map_map]
      exact congrArg _ (List.map_id _)
    · rw [List.map_append, List.map_map]
      exact hevents

end Project

/-! ## The main statement -/

/-- **A batch accounts for each of its files once**, whatever the collaborators do and whenever the
batch is stopped. No path is listed twice, updated or failed, and unless the batch was stopped every
path of its settled changes is listed. A file that was pulled in is none of them. The notices are
those of the failed files, in their order, and then the one that the batch is over, if it handled
some file. If the last flush fails no file counts as updated, and each one that did has failed. -/
theorem Assignment.Ends.lists_once {w : World} {p q : Project} {task : Assignment} {b : Batch}
    (h : task.Ends w p q b) (hp : p.Consistent) :
    let last := (q.finish w b).1
    let summary := (q.finish w b).2
    let listed := summary.updatedFiles ++ summary.failedFiles
    (listed.map Path.parts).Nodup ∧
    (summary.cancelled = false → ∀ k ∈ task.settledParts p, k ∈ listed.map Path.parts) ∧
    (∀ f ∈ summary.cascadedFiles, f.parts ∉ task.settledParts p ∧ f ∈ listed) ∧
    (∃ failures : List (Path × Error), failures.map Prod.fst = summary.failedFiles ∧
      last.events = p.events ++ failures.map (fun f => .failed f.1 f.2) ++
        if summary.updatedFiles = [] ∧ summary.failedFiles = [] then [] else
          [.completed summary]) ∧
    ∀ cause, (q.closingFlush w).2 = .error cause → summary.updatedFiles = [] ∧
      summary.failedFiles = b.summary.failedFiles ++ b.summary.updatedFiles := by
  intro last summary listed
  obtain ⟨m, hsteps, hawaited, hnext⟩ := h
  obtain ⟨p', b', awaited⟩ := m
  obtain rfl : awaited = none := hawaited
  have hbooked : Booked (task.settledParts p) p.events none q.events b :=
    Moment.Steps.booked (hsteps.tail (.finished hnext)) (hp.congr rfl rfl) (task.booked_first p)
  obtain ⟨hperm, hcascaded, hcancelled⟩ := Project.files_finish w q b
  have hlisted : (listed.map Path.parts).Perm (b.listed none) := by
    rw [Batch.listed, Option.map_none, Option.toList_none, List.append_nil]
    exact hperm.map Path.parts
  refine ⟨hlisted.nodup_iff.2 hbooked.once, fun hfull k hk => ?_, fun f hf => ?_,
    Project.published_finish w hbooked.published, fun cause hflush => ?_⟩
  · have hfull' : b.summary.cancelled = false := hcancelled ▸ hfull
    have hkeys : k ∉ b.keys := by
      have hqueue := (Batch.next_eq_finished hnext).resolve_right (by simp [hfull'])
      simp [Batch.keys, hqueue]
    have hprocessed := (hbooked.reached hfull' k hk).resolve_right hkeys
    exact hlisted.mem_iff.2 (hbooked.processed.1 hprocessed)
  · obtain ⟨hupdated, hforeign⟩ := hbooked.cascaded f (hcascaded ▸ hf)
    exact ⟨hforeign, hperm.mem_iff.2 (List.mem_append_left _ hupdated)⟩
  · have hmoved := (Project.finish_eq w q b).1.trans
      (Project.flushBatch_of_error b.summary hflush).1
    exact ⟨congrArg Summary.updatedFiles hmoved, congrArg Summary.failedFiles hmoved⟩

/-- The files call each other, and the repository cannot write its own. -/
def callsUnflushed : World where
  analyze := callsEachOther.analyze
  refusal? _ c := if c = .flush then some "the disk is full" else none

/-- One file is modified and pulls the other in; both are updated, and then fail. -/
theorem Assignment.Ends.lists_once_unflushed :
    Project.indexedCycle.Consistent ∧ ∃ q b,
      (Assignment.process [.modified ⟨"a.cs"⟩] true).Ends callsUnflushed Project.indexedCycle q b ∧
      (q.finish callsUnflushed b).2.cascadedFiles = [⟨"b.cs"⟩] ∧
      (q.finish callsUnflushed b).2.failedFiles = [⟨"a.cs"⟩, ⟨"b.cs"⟩] ∧
      ∃ failures : List (Path × Error), failures.map Prod.fst = [⟨"a.cs"⟩, ⟨"b.cs"⟩] ∧
        (q.finish callsUnflushed b).1.events =
          Project.indexedCycle.events ++ failures.map (fun f => .failed f.1 f.2) ++
            [.completed (q.finish callsUnflushed b).2] := by
  have hp := Regime.Live.indexedCycle.consistent
  obtain ⟨q, b, hends, happly⟩ := Assignment.ends_apply hp callsUnflushed
    (.process [.modified ⟨"a.cs"⟩] true)
  have hfailed : (q.finish callsUnflushed b).2.failedFiles = [⟨"a.cs"⟩, ⟨"b.cs"⟩] := by
    rw [← happly]
    decide +kernel
  have hcascaded : (q.finish callsUnflushed b).2.cascadedFiles = [⟨"b.cs"⟩] := by
    rw [← happly]
    decide +kernel
  obtain ⟨-, -, -, ⟨failures, hfailures, hevents⟩, -⟩ := hends.lists_once hp
  rw [if_neg (by simp [hfailed])] at hevents
  exact ⟨hp, q, b, hends, hcascaded, hfailed, failures, hfailures.trans hfailed, hevents⟩

end CodeGraph

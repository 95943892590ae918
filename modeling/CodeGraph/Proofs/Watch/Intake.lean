import CodeGraph.Proofs.ChangeSet
import CodeGraph.Proofs.Path
import CodeGraph.Proofs.Watch.Delivery
import CodeGraph.Watch.Filter

/-!
# Only relevant paths come out

Notices are filtered before they are recorded, but what comes out is not what went in: renames are
rewritten to an older source, deletions are added for sources that are no longer named, and batches
are put back and settled anew. All of this only uses paths that are pending already.

* `Change.Within`, `ChangeSet.Within`: changes that name only paths with a property.
* `ChangeSet.Within.push`: recording a change keeps to the paths that are pending or in the change.
* `PathFilter.Admits`: the paths that may come out.
* `Intake`, `Intake.Event`, `Intake.run`: notices that go through a debouncer.
* **`Intake.run_emits_admitted`**: the main statement.
-/

namespace CodeGraph

/-! ## Changes that name only some paths -/

variable {P : Path → Prop}

/-- The path of a change and the place that it leaves, if any, have a property. -/
def Change.Within (P : Path → Prop) (c : Change) : Prop :=
  P c.path ∧ ∀ source, c.source? = some source → P source

section Kinds

variable {path source : Path} (h : P path)
include h

theorem Change.within_created : (created path).Within P := ⟨h, nofun⟩

theorem Change.within_modified : (modified path).Within P := ⟨h, nofun⟩

theorem Change.within_deleted : (deleted path).Within P := ⟨h, nofun⟩

theorem Change.within_renamed (hs : P source) : (renamed source path).Within P :=
  ⟨h, fun _ he => Option.some.inj he ▸ hs⟩

end Kinds

theorem Change.Within.merge {pending newer : Change} (h : pending.Within P)
    (hn : newer.Within P) : (pending.merge newer).Within P := by
  rcases pending.merge_eq_or newer with he | he
  · rwa [he]
  · rwa [he]

/-- Every pending change names only paths with a property. -/
def ChangeSet.Within (P : Path → Prop) (s : ChangeSet) : Prop :=
  s.Indexed ∧ ∀ k c, s.pending k = some c → c.Within P

namespace ChangeSet

theorem within_empty : empty.Within P := by
  refine ⟨indexed_empty, fun k c hc => ?_⟩
  rw [pending_empty] at hc
  cases hc

theorem Within.of_mem_toList {s : ChangeSet} (h : s.Within P) {c : Change} (hc : c ∈ s.toList) :
    c.Within P :=
  h.2 _ c ((mem_toList h.1).1 hc)

section Push

variable {s : ChangeSet} (h : s.Within P) {c : Change} (hc : c.Within P)
include h

theorem Within.pending_subsume {k : List Part} {d : Change}
    (hd : (s.subsume c).1.pending k = some d) : d.Within P := by
  rw [ChangeSet.pending_subsume h.1, Option.ite_none_left_eq_some] at hd
  exact h.2 k d hd.2

include hc

theorem Within.snd_subsume : (s.subsume c).2.Within P := by
  rw [ChangeSet.snd_subsume h.1]
  cases ho : s.origin? c with
  | none => exact hc
  | some origin =>
    dsimp only
    split
    · exact hc
    · obtain ⟨source, -, horigin⟩ := Option.bind_eq_some_iff.1 ho
      obtain ⟨d, hd, hsource⟩ := Option.bind_eq_some_iff.1 horigin
      exact Change.within_renamed hc.1 ((h.2 _ d hd).2 origin hsource)

theorem Within.merged : (s.merged c).Within P := by
  have hnew := h.snd_subsume hc
  unfold ChangeSet.merged
  cases hq : (s.subsume c).1.pending c.path.parts with
  | none => exact hnew
  | some q => exact (h.pending_subsume hq).merge hnew

/-- **Recording a change brings no other paths in.** -/
theorem Within.push : (s.push c).Within P := by
  obtain ⟨hindexed, hpush⟩ := pending_push h.1 c
  refine ⟨hindexed, fun k d hd => ?_⟩
  rcases hpush with ⟨-, hk⟩ | ⟨q, o, hq, ho, -, -, hk⟩
  · rw [hk] at hd
    split at hd
    · obtain rfl := Option.some.inj hd
      exact h.merged hc
    · exact h.pending_subsume hd
  · rw [hk] at hd
    split at hd
    · obtain rfl := Option.some.inj hd
      exact h.merged hc
    · split at hd
      · -- The source of a pending rename is recorded as deleted.
        obtain rfl := Option.some.inj hd
        exact Change.within_deleted ((h.pending_subsume hq).2 o ho)
      · exact h.pending_subsume hd

end Push

theorem Within.foldl_push {s : ChangeSet} (h : s.Within P) {changes : List Change}
    (hc : ∀ c ∈ changes, c.Within P) : (changes.foldl ChangeSet.push s).Within P := by
  induction changes generalizing s with
  | nil => exact h
  | cons c changes ih =>
    rw [List.forall_mem_cons] at hc
    exact ih (h.push hc.1) hc.2

end ChangeSet

/-! ## Paths that a filter admits -/

namespace PathFilter

variable (f : PathFilter)

/-- A relevant path as it is seen from the root. -/
def Admits (p : Path) : Prop := f.isRelevant p = true ∧ f.root.relative p = p

theorem isRelevant_relative (p : Path) : f.isRelevant (f.root.relative p) = f.isRelevant p := by
  unfold isRelevant
  rw [ProjectRoot.relative_relative]

theorem admits_relative {p : Path} (h : f.isRelevant (f.root.relative p) = true) :
    f.Admits (f.root.relative p) :=
  ⟨h, f.root.relative_relative p⟩

theorem within_renameChanges (source target : Path) {c : Change}
    (hc : c ∈ Debouncer.renameChanges (f.root.relative source) (f.root.relative target)
      f.isRelevant) : c.Within f.Admits := by
  unfold Debouncer.renameChanges at hc
  split at hc
  · next hboth =>
    rw [Bool.and_eq_true, Bool.and_eq_true] at hboth
    obtain rfl := List.mem_singleton.1 hc
    exact Change.within_renamed (f.admits_relative hboth.1.2) (f.admits_relative hboth.1.1)
  · rw [List.mem_append, List.mem_ite_nil_right, List.mem_ite_nil_right] at hc
    rcases hc with ⟨hrelevant, hc⟩ | ⟨hrelevant, hc⟩
    · obtain rfl := List.mem_singleton.1 hc
      exact Change.within_deleted (f.admits_relative hrelevant)
    · obtain rfl := List.mem_singleton.1 hc
      exact Change.within_created (f.admits_relative hrelevant)

theorem within_changeOf? {kind : EventKind} {p : Path} (hp : f.isRelevant p = true) {c : Change}
    (hc : FileEvent.changeOf? kind (f.root.relative p) = some c) : c.Within f.Admits := by
  have hadmits : f.Admits (f.root.relative p) :=
    f.admits_relative ((f.isRelevant_relative p).trans hp)
  cases kind with
  | create | renameTo =>
    obtain rfl := Option.some.inj hc
    exact Change.within_created hadmits
  | modify | renameBoth =>
    obtain rfl := Option.some.inj hc
    exact Change.within_modified hadmits
  | remove | renameFrom =>
    obtain rfl := Option.some.inj hc
    exact Change.within_deleted hadmits
  | other => cases hc

/-- The changes that a notice stands for name only paths that are admitted. -/
theorem within_changes (e : FileEvent) {c : Change} (hc : c ∈ e.changes f) :
    c.Within f.Admits := by
  unfold FileEvent.changes at hc
  split at hc
  · exact f.within_renameChanges _ _ hc
  · obtain ⟨p, hp, hchange⟩ := List.mem_filterMap.1 hc
    exact f.within_changeOf? (List.mem_filter.1 hp).2 hchange

end PathFilter

/-! ## Notices on their way -/

/-- A debouncer with its clock and the batches that it has given out, the oldest first. -/
structure Intake where
  debouncer : Debouncer
  clock : Nat := 0
  emitted : List (List Change) := []

namespace Intake

/-- What can happen on the way. -/
inductive Event where
  | notice (e : FileEvent)
  | poll
  | flush
  | advance (duration : Nat)
  /-- A batch that was given out before is put back; batches are counted from the first. -/
  | requeue (number : Nat)

/-- The debouncer was asked for a batch. -/
def take (i : Intake) (r : Debouncer × Option (List Change)) : Intake :=
  { i with debouncer := r.1, emitted := i.emitted ++ r.2.toList }

def step (f : PathFilter) (i : Intake) : Event → Intake
  | .notice e => { i with debouncer := e.route f i.debouncer i.clock }
  | .poll => i.take (i.debouncer.poll i.clock)
  | .flush => i.take i.debouncer.flush
  | .advance duration => { i with clock := i.clock + duration }
  | .requeue number =>
    match i.emitted[number]? with
    | some batch => { i with debouncer := i.debouncer.requeue i.clock batch }
    | none => i

/-- What has come out after events in order, over a debouncer that was empty. -/
def run (f : PathFilter) (quiet : Nat) (events : List Event) : Intake :=
  events.foldl (step f) { debouncer := { quiet } }

/-- All that is pending and all that was given out names only paths with a property. -/
structure Within (P : Path → Prop) (i : Intake) : Prop where
  pending : i.debouncer.pending.Within P
  emitted : ∀ batch ∈ i.emitted, ∀ c ∈ batch, c.Within P

section Step

variable {i : Intake} (h : i.Within P)
include h

theorem Within.take {r : Debouncer × Option (List Change)}
    (hr : (r.2 = none ∧ r.1.pending = i.debouncer.pending) ∨
      (r.2 = some i.debouncer.pending.toList ∧ r.1.pending = {} ∧
        i.debouncer.pending.isEmpty = false)) : (i.take r).Within P := by
  rcases hr with ⟨hbatch, hpending⟩ | ⟨hbatch, hpending, -⟩
  · refine ⟨?_, ?_⟩
    · show r.1.pending.Within P
      rw [hpending]
      exact h.pending
    · simpa [Intake.take, hbatch] using h.emitted
  · refine ⟨?_, fun batch hmem c hc => ?_⟩
    · show r.1.pending.Within P
      rw [hpending]
      exact ChangeSet.within_empty
    · simp only [Intake.take, hbatch, Option.toList_some, List.mem_append,
        List.mem_singleton] at hmem
      rcases hmem with hmem | rfl
      · exact h.emitted batch hmem c hc
      · exact h.pending.of_mem_toList hc

theorem Within.requeue {batch : List Change} (hbatch : ∀ c ∈ batch, c.Within P) :
    ({ i with debouncer := i.debouncer.requeue i.clock batch } : Intake).Within P := by
  refine ⟨ChangeSet.within_empty.foldl_push fun c hc => ?_, h.emitted⟩
  rcases List.mem_append.1 hc with hc | hc
  · exact hbatch c hc
  · exact h.pending.of_mem_toList hc

theorem Within.route {changes : List Change} (hc : ∀ c ∈ changes, c.Within P) :
    ({ i with debouncer := changes.foldl (fun d c => d.push i.clock c) i.debouncer } :
      Intake).Within P := by
  refine ⟨?_, h.emitted⟩
  show (changes.foldl (fun d c => d.push i.clock c) i.debouncer).pending.Within P
  rw [Debouncer.pending_foldl_push]
  exact h.pending.foldl_push hc

end Step

theorem Within.step {f : PathFilter} {i : Intake} (h : i.Within f.Admits) (event : Event) :
    (i.step f event).Within f.Admits := by
  cases event with
  | notice e => exact h.route fun c hc => f.within_changes e hc
  | poll => exact h.take (i.debouncer.poll_cases i.clock)
  | flush => exact h.take i.debouncer.flush_cases
  | advance duration => exact ⟨h.pending, h.emitted⟩
  | requeue number =>
    cases hn : i.emitted[number]? with
    | none => simpa [Intake.step, hn] using h
    | some batch =>
      simpa [Intake.step, hn] using h.requeue (h.emitted batch (List.mem_of_getElem? hn))

theorem within_run (f : PathFilter) (quiet : Nat) (events : List Event) :
    (run f quiet events).Within f.Admits := by
  have hfold : ∀ i : Intake, i.Within f.Admits → (events.foldl (step f) i).Within f.Admits := by
    induction events with
    | nil => exact fun i hi => hi
    | cons event events ih => exact fun i hi => ih _ (hi.step event)
  exact hfold _ ⟨ChangeSet.within_empty, by simp⟩

/-- **Only relevant paths come out**, each as it is seen from the root: this holds for the path and
for the rename source of every change of every batch, whatever the filter leaves out and whatever
happens on the way. -/
theorem run_emits_admitted (f : PathFilter) (quiet : Nat) (events : List Event)
    {batch : List Change} (hbatch : batch ∈ (run f quiet events).emitted) {c : Change}
    (hc : c ∈ batch) {p : Path} (hp : p = c.path ∨ c.source? = some p) :
    f.isRelevant p = true ∧ f.root.relative p = p := by
  obtain ⟨hpath, hsource⟩ := (within_run f quiet events).emitted batch hbatch c hc
  rcases hp with rfl | hp
  · exact hpath
  · exact hsource p hp

/-- The C# files of a project, without those that are generated. -/
def sourceFiles : PathFilter where
  root := { path := ⟨"/p"⟩ }
  extensions := ["cs"]
  cacheDir := ⟨".arbor"⟩
  ignores p := p.startsWith ⟨"obj"⟩

/-- A file moves twice, and the batch with its first move is put back in between. -/
def movedTwice : List Event :=
  [.notice ⟨.create, [⟨"/p/x/../a.cs"⟩, ⟨"/p/obj/a.cs"⟩]⟩,
   .notice ⟨.renameBoth, [⟨"/p/a.cs"⟩, ⟨"./b.cs"⟩]⟩, .flush, .requeue 0,
   .notice ⟨.renameBoth, [⟨"/p/b.cs"⟩, ⟨"/p//c.cs"⟩]⟩, .advance 300, .poll]

/-- The second batch names the place that the file left first. -/
theorem run_emits_admitted_movedTwice :
    (run sourceFiles 300 movedTwice).emitted =
      [[.renamed ⟨"a.cs"⟩ ⟨"b.cs"⟩], [.renamed ⟨"a.cs"⟩ ⟨"c.cs"⟩]] ∧
    sourceFiles.isRelevant ⟨"a.cs"⟩ = true ∧
    sourceFiles.root.relative ⟨"a.cs"⟩ = ⟨"a.cs"⟩ := by
  have hemitted : (run sourceFiles 300 movedTwice).emitted =
      [[.renamed ⟨"a.cs"⟩ ⟨"b.cs"⟩], [.renamed ⟨"a.cs"⟩ ⟨"c.cs"⟩]] := by decide +kernel
  have hbatch : [.renamed ⟨"a.cs"⟩ ⟨"c.cs"⟩] ∈ (run sourceFiles 300 movedTwice).emitted := by
    rw [hemitted]
    exact List.mem_cons_of_mem _ List.mem_cons_self
  exact ⟨hemitted, run_emits_admitted sourceFiles 300 movedTwice hbatch List.mem_cons_self
    (.inr rfl)⟩

end Intake

end CodeGraph

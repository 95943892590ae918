import CodeGraph.Proofs.Update.File
import Mathlib.Logic.Relation

/-!
# The course of a batch

A batch passes through moments: between two files, and while the analysis of a file is awaited. A
request to cancel may come at any of them. What holds of every project that batches lead to follows
from what one step keeps.

* `Batch.store_next`, `Batch.answer_cases`: what one step does to the live graph.
* `Assignment`, `Assignment.apply`: the batches that a project can be given.
* `Moment`, `Moment.Step`, `Batch.steps_runWithin`: a run of a batch goes from moment to moment.
* `Regime`, `Regime.Live`, **`Regime.Live.invariant`**: the projects that batches lead to.
-/

namespace CodeGraph

/-! ## What one step does to the live graph -/

namespace Project

theorem keeps_finish (w : World) (p : Project) (b : Batch) : Keeps p (p.finish w b).1 := by
  have hfail : ∀ (files : List Path) (f : Path → UpdateEvent) (p : Project),
      Keeps p (files.foldl (fun p file => p.publish (f file)) p) := by
    intro files f
    induction files with
    | nil => exact Keeps.refl
    | cons file files ih => exact fun p => (Keeps.publish p (f file)).trans (ih _)
  have hflush : Keeps p (p.flushBatch w b.summary).1 := by
    unfold flushBatch
    split
    · exact Keeps.refl p
    · have hcall := Keeps.call w p .flush
        (Keeps.withDisk fun r d => r.flushWith w.refusesStep d w.now)
      revert hcall
      rcases p.call w .flush _ with ⟨q, cause | _⟩
      · exact fun hcall => hcall.trans (hfail _ _ _)
      · exact id
  refine hflush.trans ?_
  unfold finish
  dsimp only
  split
  · exact ⟨rfl, rfl, rfl, rfl⟩
  · exact ⟨rfl, rfl, rfl, rfl⟩

end Project

namespace Batch

/-- What every removal of a file keeps, the removals before an analysis keep. -/
theorem store_removeStale {I : Store → Prop}
    (hdrop : ∀ (p : Project) (path : Path), I p.store → I (p.dropFile path).1.store) (w : World)
    (paths : List Path) (p : Project) (s : Summary) (h : I p.store) :
    I (removeStale w paths p s).1.store := by
  induction paths generalizing p s with
  | nil => exact h
  | cons path paths ih =>
    obtain ⟨q, s', hkeeps, ⟨e, hr⟩ | hr⟩ := p.removeFile_cases w s path
    · rw [removeStale, hr]
      exact hkeeps.store ▸ hdrop p path h
    · have hq := ih q s' (hkeeps.store ▸ hdrop p path h)
      rw [removeStale, hr]
      rcases hrest : removeStale w paths q s' with ⟨q', s'', e | r⟩
      · simpa only [hrest] using hq
      · simpa only [hrest] using hq

theorem store_next {I : Store → Prop}
    (hdrop : ∀ (p : Project) (path : Path), I p.store → I (p.dropFile path).1.store) (w : World)
    (b : Batch) (p : Project) (h : I p.store) : I (b.next w p).1.store := by
  have hstart : ∀ (b : Batch) (c : Change) (cascaded : Bool),
      I (b.start w p c cascaded).1.store := by
    intro b c cascaded
    have hstale := store_removeStale hdrop w (c.source?.toList ++ [c.path]) p b.summary h
    unfold start
    revert hstale
    rcases removeStale w (c.source?.toList ++ [c.path]) p b.summary with
      ⟨q, s, e | ⟨seed, orphaned⟩⟩
    · exact id
    · intro hstale
      dsimp only
      split <;> exact hstale
  unfold next
  split
  · exact h
  · split
    · exact h
    · split
      · exact h
      · exact hstart _ _ _

/-- An answer either leaves the live graph alone or puts the output in. -/
theorem answer_cases (w : World) (b : Batch) (p : Project) (f : InFlight) (reply : Reply) :
    (b.answer w p f reply).1.store = p.store ∨
      ∃ output, reply.outcome = .ok output ∧ (b.answer w p f reply).1.store =
        Project.integrated p.store f.change.path output f.orphaned := by
  have hcancel : (if reply.cancels then p.cancel else p).store = p.store := by
    split <;> rfl
  unfold answer
  cases hr : reply.outcome with
  | error cause => exact .inl hcancel
  | ok output =>
    refine .inr ⟨output, rfl, ?_⟩
    rw [← hcancel]
    generalize (if reply.cancels then p.cancel else p) = q
    obtain ⟨q', s', hkeeps, ⟨e, hi⟩ | hi⟩ :=
      q.integrate_cases w b.summary f.change.path output f.orphaned
    · simp only [hi]
      exact hkeeps.store
    · simp only [hi]
      exact hkeeps.store

end Batch

/-! ## Moments -/

/-- A moment of a batch: the project, the batch, and the file whose analysis is under way, with the
answer that the analyzer is about to give. -/
structure Moment where
  project : Project
  batch : Batch
  awaited : Option (InFlight × Reply) := none

namespace Moment

/-- What leads from one moment to the next. -/
inductive Step (w : World) : Moment → Moment → Prop
  /-- The batch is over. -/
  | finished {p b p' b'} (h : b.next w p = (p', b', .finished)) : Step w ⟨p, b, none⟩ ⟨p', b', none⟩
  /-- The next file is done without an analysis. -/
  | handled {p b p' b'} (h : b.next w p = (p', b', .handled)) : Step w ⟨p, b, none⟩ ⟨p', b', none⟩
  /-- The analyzer is asked about the next file. -/
  | asked {p b p' b' f} (h : b.next w p = (p', b', .awaits f)) :
    Step w ⟨p, b, none⟩ ⟨(Batch.ask w p' f).1, b', some (f, (Batch.ask w p' f).2.2)⟩
  /-- The analyzer answers. -/
  | answered {p b f reply} :
    Step w ⟨p, b, some (f, reply)⟩ ⟨(b.answer w p f reply).1, (b.answer w p f reply).2, none⟩
  /-- Somebody asks the batch to stop. -/
  | cancelled {p b awaited} : Step w ⟨p, b, awaited⟩ ⟨p.cancel, b, awaited⟩

/-- What leads from one moment to a later one. -/
abbrev Steps (w : World) : Moment → Moment → Prop := Relation.ReflTransGen (Step w)

end Moment

namespace Batch

/-- The file that a pause waits for. -/
def Pause.awaited : Pause → Option (InFlight × Reply)
  | ended => none
  | waits file _ reply => some (file, reply)

/-- A run of a batch goes from moment to moment. -/
theorem steps_runWithin (w : World) (holds : Request → Bool) (fuel : Nat) (b : Batch)
    (p : Project) :
    Moment.Steps w ⟨p, b, none⟩ ⟨(runWithin w holds fuel b p).1, (runWithin w holds fuel b p).2.1,
      (runWithin w holds fuel b p).2.2.awaited⟩ := by
  induction fuel generalizing b p with
  | zero => exact .refl
  | succ fuel ih =>
    rw [runWithin]
    rcases hnext : b.next w p with ⟨p', b', _ | _ | f⟩
    · exact .single (.finished hnext)
    · exact .head (.handled hnext) (ih b' p')
    · have hasked := Moment.Step.asked hnext
      dsimp only
      split
      · exact .single hasked
      · exact .head hasked (.head .answered (ih _ _))

end Batch

/-! ## Assignments -/

/-- A batch that a project can be given. -/
inductive Assignment where
  | process (changes : List Change) (cascade : Bool)
  | update (paths : List Path)
  | index (paths : List Path)

namespace Assignment

/-- Does an assignment from beginning to end. -/
def apply (w : World) (p : Project) : Assignment → Project × Summary
  | process changes cascade => p.processChanges w changes cascade
  | update paths => p.updateFiles w paths
  | index paths => p.indexFiles w paths

/-- The changes of an assignment. -/
def changes : Assignment → List Change
  | process changes _ => changes
  | update paths => paths.map .modified
  | index paths => paths.map .created

/-- Whether an assignment pulls in the files that refer to what changed. -/
def cascades (p : Project) : Assignment → Bool
  | process _ cascade => cascade
  | update _ => p.config.cascade
  | index _ => false

/-- The first moment of an assignment. -/
def first (p : Project) (task : Assignment) : Moment :=
  ⟨(p.begin task.changes (task.cascades p)).1, (p.begin task.changes (task.cascades p)).2, none⟩

theorem apply_eq_finish (w : World) (p : Project) (task : Assignment) :
    ∃ m, Moment.Steps w (task.first p) m ∧ task.apply w p = m.project.finish w m.batch := by
  have hrun : ∀ changes cascade, ∃ m : Moment,
      Moment.Steps w ⟨(p.begin changes cascade).1, (p.begin changes cascade).2, none⟩ m ∧
      p.processChanges w changes cascade = m.project.finish w m.batch := by
    intro changes cascade
    have hsteps := (p.begin changes cascade).2.steps_runWithin w (fun _ => false)
      ((p.begin changes cascade).2.bound (p.begin changes cascade).1) (p.begin changes cascade).1
    exact ⟨_, hsteps, rfl⟩
  cases task with
  | process changes cascade => exact hrun changes cascade
  | update paths => exact hrun (paths.map .modified) p.config.cascade
  | index paths => exact hrun (paths.map .created) false

end Assignment

/-! ## The projects that batches lead to -/

/-- Under which conditions batches are run: how a project starts, what the collaborators do, and
which assignments come. -/
structure Regime where
  starts : Project → Prop
  world : World → Prop
  task : Assignment → Prop := fun _ => True

namespace Regime

/-- The projects that batches lead to: between two batches, in the middle of one, and after one that
was left at any moment. -/
inductive Live (r : Regime) : Project → Prop
  | start {p} (h : r.starts p) : Live r p
  | done {p w task} (h : Live r p) (hw : r.world w) (ht : r.task task) : Live r (task.apply w p).1
  | during {p w task m} (h : Live r p) (hw : r.world w) (ht : r.task task)
    (hm : Moment.Steps w (task.first p) m) : Live r m.project
  | left {p w task m} (h : Live r p) (hw : r.world w) (ht : r.task task)
    (hm : Moment.Steps w (task.first p) m) : Live r (m.project.finish w m.batch).1

/-- **What every step keeps holds of all projects that batches lead to.** -/
theorem Live.invariant {r : Regime} {I : Project → Prop} {J : Moment → Prop}
    (hstart : ∀ p, r.starts p → I p) (hfirst : ∀ p task, r.task task → I p → J (task.first p))
    (hstep : ∀ w m m', r.world w → Moment.Step w m m' → J m → J m')
    (hproject : ∀ m, J m → I m.project)
    (hfinish : ∀ w m, J m → I (m.project.finish w m.batch).1) {p : Project} (h : r.Live p) :
    I p := by
  have hsteps : ∀ {w p task m}, r.world w → r.task task → I p → Moment.Steps w (task.first p) m →
      J m := by
    intro w p task m hw ht hp hm
    induction hm with
    | refl => exact hfirst p task ht hp
    | tail _ hs ih => exact hstep w _ _ hw hs ih
  induction h with
  | start h => exact hstart _ h
  | @done p w task _ hw ht ih =>
    obtain ⟨m, hm, happly⟩ := task.apply_eq_finish w p
    rw [happly]
    exact hfinish w m (hsteps hw ht ih hm)
  | during _ hw ht hm ih => exact hproject _ (hsteps hw ht ih hm)
  | left _ hw ht hm ih => exact hfinish _ _ (hsteps hw ht ih hm)

end Regime

end CodeGraph

import CodeGraph.Proofs.Update.Mirror

/-!
# What is durable after a batch

A batch ends with a flush if it handled some file successfully, and only then. So the data of a file
that failed is gone from the live graph, but stays in the snapshot file until a later batch succeeds
with some file: a restart brings it back.

* `Project.size_dropFile`: removing a file takes out as much as it counts.
* `Course`: a project over a snapshot file, batch after batch, with what it owes the file.
* `Ledger.Recorded`: what the snapshot file says about the live graph.
* **`Course.reopens`**: the file holds the live graph exactly if nothing is owed.
* `Course.stale_after_failure`: a batch after which something is.
-/

namespace CodeGraph

open Std

/-! ## What a removal takes out -/

namespace Project

/-- How much a removal took out. -/
def Removal.size (r : Removal) : Nat := r.nodes.length + r.edgeCount

theorem edgeCount_takeTouching (ids : List NodeId) (acc : Store × ExtTreeMap EdgeId Edge × Nat) :
    (ids.foldl takeTouching acc).1.edgeCount + (ids.foldl takeTouching acc).2.2 =
      acc.1.edgeCount + acc.2.2 := by
  induction ids generalizing acc with
  | nil => rfl
  | cons id ids ih =>
    have hturn : (takeTouching acc id).1.edgeCount + (takeTouching acc id).2.2 =
        acc.1.edgeCount + acc.2.2 := by
      have hcount : (acc.1.removeEdgesByNode id).1.edgeCount + (acc.1.removeEdgesByNode id).2 =
          acc.1.edgeCount := Store.edgeCount_removeEdges _ _
      simp only [takeTouching]
      omega
    rw [List.foldl_cons, ih, hturn]

/-- The removal of a file up to its dangling edges: what is left, the edges and their number. -/
def takenFor (s : Store) (path : Path) : Store × ExtTreeMap EdgeId Edge × Nat :=
  (s.removeNodesByFile path).2.foldl takeTouching
    (((s.removeNodesByFile path).1.removeEdgesByFile path).1, ∅, 0)

theorem store_dropFile (p : Project) (path : Path) :
    (p.dropFile path).1.store = (takenFor p.store path).1 := rfl

theorem edgeCount_removal (p : Project) (path : Path) :
    (p.dropFile path).2.edgeCount =
      ((p.store.removeNodesByFile path).1.removeEdgesByFile path).2 +
        (takenFor p.store path).2.2 := rfl

theorem edgeCount_dropFile (p : Project) (path : Path) :
    (p.dropFile path).1.store.edgeCount + (p.dropFile path).2.edgeCount = p.store.edgeCount := by
  have hown : ((p.store.removeNodesByFile path).1.removeEdgesByFile path).1.edgeCount +
      ((p.store.removeNodesByFile path).1.removeEdgesByFile path).2 = p.store.edgeCount :=
    Store.edgeCount_removeEdges _ _
  have hdangling : (takenFor p.store path).1.edgeCount + (takenFor p.store path).2.2 =
      ((p.store.removeNodesByFile path).1.removeEdgesByFile path).1.edgeCount :=
    edgeCount_takeTouching _ _
  rw [store_dropFile, edgeCount_removal]
  omega

section Coherent

variable {p : Project} (h : p.store.Coherent) (path : Path)
include h

theorem nodeCount_dropFile :
    (p.dropFile path).1.store.nodeCount + (p.dropFile path).2.nodes.length = p.store.nodeCount := by
  have hcoherent := (h.removeNodesByFile path).removeEdgesByFile path
  have hstore : (takenFor p.store path).1 =
      ((p.store.removeNodesByFile path).1.removeEdgesByFile path).1.removeDangling
        (p.store.removeNodesByFile path).2 := (@foldl_takeTouching (_, ∅, 0) hcoherent _).1
  rw [store_dropFile, hstore, Store.nodeCount, Store.nodes_removeDangling,
    Store.nodes_removeEdgesByFile]
  exact p.store.nodeCount_removeNodesByFile path

/-- **Removing a file takes out as much as it counts.** -/
theorem size_dropFile :
    (p.dropFile path).1.store.size + (p.dropFile path).2.size = p.store.size := by
  have hnodes := nodeCount_dropFile h path
  have hedges := p.edgeCount_dropFile path
  unfold Store.size Removal.size
  omega

theorem dropFile_eq_self (hr : (p.dropFile path).2.size = 0) :
    (p.dropFile path).1.store = p.store := by
  obtain ⟨hlength, hcount⟩ := Nat.add_eq_zero_iff.1 hr
  have hnodes : (p.store.removeNodesByFile path).2 = [] := List.length_eq_zero_iff.1 hlength
  have hstore := Store.removeNodesByFile_eq_self h hnodes
  rw [edgeCount_removal] at hcount
  have hedges := Store.removeEdges_eq_self (Nat.add_eq_zero_iff.1 hcount).1
  rw [store_dropFile, takenFor, hnodes, List.foldl_nil]
  exact hedges.trans hstore

end Coherent

end Project

/-! ## What the snapshot file says about the live graph -/

/-- How much a batch has removed. -/
def Summary.removed (s : Summary) : Nat := s.nodesRemoved + s.edgesRemoved

theorem Summary.removed_afterRemoval (s : Summary) (r : Project.Removal) :
    (s.afterRemoval r).removed = s.removed + r.size := by
  unfold Summary.removed Summary.afterRemoval Project.Removal.size
  dsimp only
  omega

namespace Ledger

/-- The snapshot file holds `g`. As long as the repository counts as unchanged that is the live
graph; as long as the batch has handled no file, it is the live graph before what was removed, `n`
of it before the batch. -/
structure Recorded (root : Path) (cacheDir : String) (g : Snapshot) (n : Nat) (l : Ledger) :
    Prop where
  mirrored : l.Mirrored
  reopen : Repository.reopen root cacheDir l.disk = .ok g
  backing : ∃ dirty, l.repository.backing = some ⟨snapshotPath root cacheDir, dirty⟩
  clean : l.repository.backing = some ⟨snapshotPath root cacheDir, false⟩ → l.store.snapshot = g
  size : l.summary.updatedFiles = [] → g.size = l.store.size + (n + l.summary.removed)
  unchanged : l.summary.updatedFiles = [] → n + l.summary.removed = 0 → l.store.snapshot = g

variable {root : Path} {cacheDir : String} {g : Snapshot} {n : Nat} {l l' : Ledger}

theorem Recorded.drop {p : Project} {s : Summary} (h : (p.ledger s).Recorded root cacheDir g n)
    (path : Path) :
    Recorded root cacheDir g n ⟨(p.dropFile path).1.store, p.repository.forgetFile path, p.disk,
      s.afterRemoval (p.dropFile path).2⟩ := by
  have hcoherent : p.store.Coherent := h.mirrored.coherent
  have hsame : p.repository.store = p.store := h.mirrored.repository
  have hmirrored := h.mirrored.move (.drop p s path)
  have hsize := Project.size_dropFile hcoherent path
  have hremoved := s.removed_afterRemoval (p.dropFile path).2
  refine ⟨hmirrored, h.reopen, ?_, fun hb => ?_, fun hu => ?_, fun hu hn => ?_⟩
  · obtain ⟨dirty, hb⟩ := h.backing
    exact Repository.backing_forgetFile hb path
  · obtain ⟨hclean, hstore⟩ := Repository.forgetFile_clean (hsame ▸ hcoherent) hb
    have hkept : (p.dropFile path).1.store = p.store :=
      hmirrored.repository.symm.trans (hstore.trans hsame)
    exact hkept ▸ h.clean hclean
  · have hbefore : g.size = p.store.size + (n + s.removed) := h.size hu
    dsimp only
    omega
  · dsimp only at hn
    have hkept := Project.dropFile_eq_self hcoherent path (by omega)
    have hbefore : p.store.snapshot = g := h.unchanged hu (by
      change n + s.removed = 0
      omega)
    exact hkept ▸ hbefore

theorem Recorded.move (hm : Move l l') (h : l.Recorded root cacheDir g n) :
    l'.Recorded root cacheDir g n := by
  cases hm with
  | drop p s path => exact h.drop path
  | take p s s' path output orphaned hu =>
    obtain ⟨dirty, hb⟩ := h.backing
    have hsaved := Repository.backing_saveAll hb
    refine ⟨h.mirrored.move (.take p s s' path output orphaned hu), h.reopen, ⟨true, hsaved _ _⟩,
      fun hclean => ?_, fun h => absurd h hu, fun h => absurd h hu⟩
    have hdirty := (hsaved _ _).symm.trans hclean
    cases hdirty
  | update _ s hu =>
    exact ⟨⟨h.mirrored.repository, h.mirrored.coherent⟩, h.reopen, h.backing, h.clean,
      fun h => absurd h hu, fun h => absurd h hu⟩
  | note _ s hu hn he =>
    have hremoved : s.removed = l.summary.removed := by
      unfold Summary.removed
      rw [hn, he]
    refine ⟨⟨h.mirrored.repository, h.mirrored.coherent⟩, h.reopen, h.backing, h.clean,
      fun hs => ?_, fun hs hz => ?_⟩
    · rw [hremoved]
      exact h.size (hu ▸ hs)
    · rw [hremoved] at hz
      exact h.unchanged (hu ▸ hs) hz

theorem Recorded.moves (hm : Moves l l') (h : l.Recorded root cacheDir g n) :
    l'.Recorded root cacheDir g n := by
  induction hm with
  | refl => exact h
  | tail _ hm ih => exact ih.move hm

theorem recorded_of_reopen (hm : l.Mirrored)
    (hr : Repository.reopen root cacheDir l.disk = .ok l.store.snapshot)
    (hb : ∃ dirty, l.repository.backing = some ⟨snapshotPath root cacheDir, dirty⟩)
    (hs : l.summary.removed = 0) : l.Recorded root cacheDir l.store.snapshot 0 := by
  refine ⟨hm, hr, hb, fun _ => rfl, fun _ => ?_, fun _ _ => rfl⟩
  rw [Store.size_snapshot, hs]
  rfl

end Ledger

/-! ## From batch to batch -/

/-- What is owed to the snapshot file after a batch: a batch that handled no file leaves what it
removed to be recorded later. -/
def owed (n : Nat) (s : Summary) : Nat := if s.updatedFiles = [] then n + s.removed else 0

/-- A project over the snapshot file of a root, from the time it took the stored graph over, batch
after batch, as long as the file can be written; and how much it owes the file. -/
inductive Course (root : Path) (cacheDir : String) : Project → Nat → Prop
  | hydrated {w : World} {p q : Project} (hq : q.repository = .onDisk root cacheDir)
      (h : q.hydrate w = (p, .ok ())) : Course root cacheDir p 0
  | batch {p : Project} {n : Nat} {w : World} {task : Assignment} {m : Moment}
      (h : Course root cacheDir p n) (hw : w.Obliging) (hm : Moment.Steps w (task.first p) m)
      (hf : m.batch.summary.updatedFiles ≠ [] →
        (m.project.repository.flushWith w.refusesStep m.project.disk w.now).2.2 = .ok ()) :
    Course root cacheDir (m.project.finish w m.batch).1 (owed n (m.project.finish w m.batch).2)

theorem Project.summary_finish {w : World} (hw : w.Obliging) (p : Project) (b : Batch)
    (hf : b.summary.updatedFiles ≠ [] →
      (p.repository.flushWith w.refusesStep p.disk w.now).2.2 = .ok ()) :
    (p.finish w b).2 = b.summary := by
  have hflush : (p.flushBatch w b.summary).2 = b.summary := by
    unfold flushBatch call
    simp only [hw _ _, withDisk, List.isEmpty_iff]
    by_cases hu : b.summary.updatedFiles = []
    · rw [if_pos hu]
    · rw [if_neg hu, hf hu]
      rfl
  exact hflush

theorem Moment.moves_of_steps {w : World} (hw : w.Obliging) {m m' : Moment} (hm : Steps w m m') :
    Ledger.Moves m.ledger m'.ledger := by
  induction hm with
  | refl => exact .refl
  | tail _ hs ih => exact ih.trans (hs.moves hw)

namespace Project

/-- The last moment of a batch of changes that is done without a pause. -/
def lastMoment (w : World) (p : Project) (changes : List Change) (cascade : Bool) : Moment :=
  let last := (p.begin changes cascade).2.run w (fun _ => false) (p.begin changes cascade).1
  ⟨last.1, last.2.1, last.2.2.awaited⟩

theorem processChanges_eq_finish (w : World) (p : Project) (changes : List Change)
    (cascade : Bool) : p.processChanges w changes cascade =
      (p.lastMoment w changes cascade).project.finish w
        (p.lastMoment w changes cascade).batch := rfl

theorem steps_lastMoment (w : World) (p : Project) (changes : List Change) (cascade : Bool) :
    Moment.Steps w ((Assignment.process changes cascade).first p)
      (p.lastMoment w changes cascade) := Batch.steps_runWithin ..

end Project

namespace Course

variable {root : Path} {cacheDir : String}

/-- What the snapshot file says about the live graph between two batches. -/
theorem recorded {p : Project} {n : Nat} (h : Course root cacheDir p n) :
    ∃ g, ∀ k, (p.ledger { sequence := k }).Recorded root cacheDir g n := by
  induction h with
  | @hydrated w p q hq h =>
    obtain ⟨d, r, hset, rfl⟩ := Project.hydrate_eq_ok h
    rw [hq] at hset
    obtain ⟨hreopen, hbacking⟩ := Repository.reopen_setUp hset
    have hcoherent : r.store.Coherent := Repository.coherent_setUp Store.coherent_empty hset
    have hmirrored := Project.mirrored_hydrated ⟨w, q, [], by rw [hq]; rfl, h⟩
    refine ⟨(Store.ofSnapshot r.graph).snapshot, fun k =>
      Ledger.recorded_of_reopen (hmirrored _) ?_ ⟨false, hbacking⟩ rfl⟩
    refine hreopen.trans (congrArg Except.ok ?_)
    exact congrArg Store.snapshot (Store.ofSnapshot_snapshot hcoherent).symm
  | @batch p n w task m h hw hm hf ih =>
    obtain ⟨g, hg⟩ := ih
    have hmoment : m.ledger.Recorded root cacheDir g n := (hg _).moves (Moment.moves_of_steps hw hm)
    have hmirrored : m.project.repository.store = m.project.store := hmoment.mirrored.repository
    have hcoherent : m.project.store.Coherent := hmoment.mirrored.coherent
    have hstored := Project.stored_finish w m.project m.batch
    have hstore := (Project.keeps_finish w m.project m.batch).store
    rw [Project.summary_finish hw _ _ hf]
    by_cases hu : m.batch.summary.updatedFiles = []
    · -- Nothing is written, and what the batch removed is owed.
      rw [if_pos (.inl hu), Prod.mk.injEq] at hstored
      refine ⟨g, fun k => ?_⟩
      rw [Project.ledger, hstore, hstored.1, hstored.2, owed, if_pos hu]
      exact ⟨⟨hmirrored, hcoherent⟩, hmoment.reopen, hmoment.backing, hmoment.clean,
        fun _ => hmoment.size hu, fun _ => hmoment.unchanged hu⟩
    · have hcalled : ¬ (m.batch.summary.updatedFiles = [] ∨
          (w.refusal? m.project.calls .flush).isSome = true) := by simp [hu, hw _ _]
      rw [if_neg hcalled, Prod.mk.injEq] at hstored
      refine ⟨m.project.store.snapshot, fun k => ?_⟩
      rw [Project.ledger, hstore, hstored.1, hstored.2, owed, if_neg hu]
      obtain ⟨dirty, hb⟩ := hmoment.backing
      have hgraph : m.project.repository.graph = m.project.store.snapshot :=
        congrArg Store.snapshot hmirrored
      have hclean : dirty = false →
          Repository.reopen root cacheDir m.project.disk = .ok m.project.repository.graph := by
        rintro rfl
        have hsnapshot : m.project.store.snapshot = g := hmoment.clean hb
        rw [hgraph, hsnapshot]
        exact hmoment.reopen
      obtain ⟨hreopen, hbacking⟩ :=
        Repository.reopen_flushWith hb (hmirrored ▸ hcoherent) hclean (hf hu)
      exact Ledger.recorded_of_reopen
        (l := ⟨m.project.store, _, _, { sequence := k }⟩)
        ⟨(Repository.store_flushWith ..).trans hmirrored, hcoherent⟩ (hgraph ▸ hreopen)
        ⟨false, hbacking⟩ rfl

theorem process {p : Project} {n : Nat} {w : World} (h : Course root cacheDir p n)
    (hw : w.Obliging) (changes : List Change) (cascade : Bool)
    (hf : (p.lastMoment w changes cascade).batch.summary.updatedFiles ≠ [] →
      ((p.lastMoment w changes cascade).project.repository.flushWith w.refusesStep
        (p.lastMoment w changes cascade).project.disk w.now).2.2 = .ok ()) :
    Course root cacheDir (p.processChanges w changes cascade).1
      (owed n (p.processChanges w changes cascade).2) := by
  rw [p.processChanges_eq_finish]
  exact .batch h hw (p.steps_lastMoment w changes cascade) hf

/-- **What is durable**: after every batch the snapshot file can be read, and holds as much more
than the live graph as is owed to it. So it holds the live graph exactly if nothing is. -/
theorem reopens {p : Project} {n : Nat} (h : Course root cacheDir p n) :
    ∃ g, Repository.reopen root cacheDir p.disk = .ok g ∧ g.size = p.store.size + n ∧
      (g = p.store.snapshot ↔ n = 0) := by
  obtain ⟨g, hg⟩ := h.recorded
  have hrecorded := hg 0
  have hsize : g.size = p.store.size + n := hrecorded.size rfl
  refine ⟨g, hrecorded.reopen, hsize, fun he => ?_, fun hn => ?_⟩
  · rw [he, Store.size_snapshot] at hsize
    omega
  · exact (hrecorded.unchanged rfl hn).symm

end Course

/-! ## A batch that is not durable -/

/-- An analyzer that finds a declaration the first time it is asked, and fails from then on. -/
def failsLater : World where
  analyze n r :=
    { outcome := if n = 0 then .ok { nodes := [.ofFile r.path] } else .error (.text "unreadable") }
  refusal? _ _ := none

namespace Project

/-- A project over an empty disk. -/
def unopened : Project :=
  { root := ⟨⟨"/r"⟩, none⟩, config := {}, disk := {}, repository := .onDisk ⟨"/r"⟩ ".arbor" }

/-- The project after its stored graph was taken over, and a file was indexed. -/
def indexed : Project :=
  ((unopened.hydrate failsLater).1.processChanges failsLater [.created ⟨"a.cs"⟩] true).1

/-- The project after the file was modified, and its analysis failed. -/
def dropped : Project := (indexed.processChanges failsLater [.modified ⟨"a.cs"⟩] true).1

theorem course_dropped : Course ⟨"/r"⟩ ".arbor" dropped 1 := by
  have hrefuses : failsLater.Obliging := fun _ _ => rfl
  have hopened : Course ⟨"/r"⟩ ".arbor" (unopened.hydrate failsLater).1 0 := by
    have hok : (unopened.hydrate failsLater).2 = .ok () := by decide +kernel
    exact .hydrated (q := unopened) rfl (Prod.ext rfl hok)
  have hindexed : Course ⟨"/r"⟩ ".arbor" indexed 0 := by
    have h := hopened.process hrefuses [.created ⟨"a.cs"⟩] true fun _ => by decide +kernel
    have howed : owed 0 ((unopened.hydrate failsLater).1.processChanges failsLater
        [.created ⟨"a.cs"⟩] true).2 = 0 := by decide +kernel
    rwa [howed] at h
  have hdropped := hindexed.process hrefuses [.modified ⟨"a.cs"⟩] true fun hu =>
    absurd (by decide +kernel) hu
  have howed : owed 0 (indexed.processChanges failsLater [.modified ⟨"a.cs"⟩] true).2 = 1 := by
    decide +kernel
  rwa [howed] at hdropped

end Project

/-- The snapshot file holds one declaration that the live graph has not. -/
theorem Course.reopens_dropped :
    Project.dropped.store.size = 0 ∧ Course ⟨"/r"⟩ ".arbor" Project.dropped 1 ∧
    ∃ g, Repository.reopen ⟨"/r"⟩ ".arbor" Project.dropped.disk = .ok g ∧
      g.size = Project.dropped.store.size + 1 ∧ (g = Project.dropped.store.snapshot ↔ 1 = 0) :=
  ⟨by decide +kernel, Project.course_dropped, Course.reopens Project.course_dropped⟩

/-- **A batch in which the only file fails is not durable.** -/
theorem Course.stale_after_failure :
    ¬ ∀ (root : Path) (cacheDir : String) (p : Project) (n : Nat), Course root cacheDir p n →
      Repository.reopen root cacheDir p.disk = .ok p.store.snapshot := by
  intro hdurable
  have hreopen := hdurable _ _ _ _ Project.course_dropped
  obtain ⟨g, hg⟩ := Project.course_dropped.recorded
  have hrecorded := hg 0
  have hsame : (.ok g : Except Error Snapshot) = .ok Project.dropped.store.snapshot :=
    hrecorded.reopen.symm.trans hreopen
  have hsize : g.size = Project.dropped.store.size + 1 := hrecorded.size rfl
  rw [Except.ok.inj hsame, Store.size_snapshot] at hsize
  omega

end CodeGraph

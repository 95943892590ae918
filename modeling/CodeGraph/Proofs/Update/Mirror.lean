import CodeGraph.Proofs.Repository
import CodeGraph.Proofs.Update.Moment
import CodeGraph.Proofs.Update.Turn

/-!
# The repository mirrors the live graph

The live graph and the repository reach their content by different ways: the live graph drops the
edges of a file, then those that dangle, and later takes some of them back; the repository drops the
declarations of a file with all edges at them, and then the edges of the file. If the repository
refuses no call they agree at every moment, whatever the analyzer answers.

* `Ledger`, `Ledger.Move`: the live graph beside the repository, and what a step can do to them.
* `Moment.Step.moves`: every step of a batch is made of such moves.
* **`Regime.Live.repository_eq_store`**: the main statement.
-/

namespace CodeGraph

open Std

theorem Store.addEdges_append (s : Store) (es fs : List Edge) :
    s.addEdges (es ++ fs) = (s.addEdges es).addEdges fs := List.foldl_append

namespace Project

/-- The edges, of those that lost an end, that have both ends again once an analysis was taken
in. -/
def restored (s : Store) (path : Path) (output : Output) (orphaned : List Edge) : List Edge :=
  let added := (s.addNodes output.nodes).addEdges (output.edges.map (ownEdge path))
  orphaned.filter fun e => added.hasNode e.source && added.hasNode e.target

theorem integrated_eq (s : Store) (path : Path) (output : Output) (orphaned : List Edge) :
    integrated s path output orphaned =
      (s.addNodes output.nodes).addEdges
        (output.edges.map (ownEdge path) ++ restored s path output orphaned) := by
  rw [Store.addEdges_append]
  rfl

/-- **The repository forgets a file as the live graph drops it.** -/
theorem store_forgetFile_eq {p : Project} (h : p.store.Coherent)
    (hr : p.repository.store = p.store) (path : Path) :
    (p.repository.forgetFile path).store = (p.dropFile path).1.store := by
  have hdropped := dropped_dropFile h path
  have h1 := h.removeNodesByFile path
  have h2 := h1.removeDangling (p.store.removeNodesByFile path).2
  rw [Repository.store_forgetFile, hr]
  refine (h2.removeEdgesByFile path).ext hdropped.coherent (fun i => ?_) (fun i => ?_)
  · ext n
    rw [hdropped.node?, Store.node?, Store.nodes_removeEdgesByFile, Store.nodes_removeDangling]
    change (p.store.removeNodesByFile path).1.node? i = some n ↔ _
    rw [Store.node?_removeNodesByFile h, Option.filter_eq_some_iff, bne_iff_ne]
  · ext e
    rw [hdropped.edge?, Store.edge?_removeEdgesByFile h2, Store.edge?_removeDangling h1,
      Store.edge?_removeNodesByFile]
    change (_ ∧ ¬ Store.Touches e (p.dropFile path).2.nodes) ∧ _ ↔ _
    rw [and_assoc, and_comm (a := ¬ _)]

end Project

/-! ## What a step can do -/

/-- The live graph beside the repository, with the disk and what was counted so far. -/
structure Ledger where
  store : Store
  repository : Repository
  disk : Disk
  summary : Summary

/-- The ledger of a project at a point of a batch. -/
def Project.ledger (p : Project) (s : Summary) : Ledger := ⟨p.store, p.repository, p.disk, s⟩

/-- The ledger of a moment. -/
def Moment.ledger (m : Moment) : Ledger := m.project.ledger m.batch.summary

/-- The counts after a file was removed. -/
def Summary.afterRemoval (s : Summary) (r : Project.Removal) : Summary :=
  { s with
    nodesRemoved := s.nodesRemoved + r.nodes.length
    edgesRemoved := s.edgesRemoved + r.edgeCount }

namespace Ledger

/-- What a step of a batch can do if the repository refuses nothing. -/
inductive Move : Ledger → Ledger → Prop
  /-- A file is removed from both graphs. -/
  | drop (p : Project) (s : Summary) (path : Path) :
    Move (p.ledger s) ⟨(p.dropFile path).1.store, p.repository.forgetFile path, p.disk,
      s.afterRemoval (p.dropFile path).2⟩
  /-- An analysis is taken into both graphs, and its file counts as updated. -/
  | take (p : Project) (s s' : Summary) (path : Path) (output : Output) (orphaned : List Edge)
      (h : s'.updatedFiles ≠ []) :
    Move (p.ledger s) ⟨Project.integrated p.store path output orphaned,
      p.repository.saveAll output.nodes (output.edges.map (Project.ownEdge path) ++
        Project.restored p.store path output orphaned), p.disk, s'⟩
  /-- A file that is gone counts as updated. -/
  | update (l : Ledger) (s : Summary) (h : s.updatedFiles ≠ []) : Move l { l with summary := s }
  /-- A failure or the end of the batch is noted. -/
  | note (l : Ledger) (s : Summary) (hu : s.updatedFiles = l.summary.updatedFiles)
      (hn : s.nodesRemoved = l.summary.nodesRemoved)
      (he : s.edgesRemoved = l.summary.edgesRemoved) : Move l { l with summary := s }

/-- Moves one after the other. -/
abbrev Moves : Ledger → Ledger → Prop := Relation.ReflTransGen Move

end Ledger

namespace Project

section Obliging

variable {w : World} (hw : w.Obliging) (p : Project) (s : Summary) (path : Path)
include hw

theorem removeFile_ledger :
    ∃ q, p.removeFile w s path = (q, s.afterRemoval (p.dropFile path).2, .ok (p.dropFile path).2) ∧
      q.ledger (s.afterRemoval (p.dropFile path).2) =
        ⟨(p.dropFile path).1.store, p.repository.forgetFile path, p.disk,
          s.afterRemoval (p.dropFile path).2⟩ := by
  simp only [removeFile, forgetFile, call, hw _ _, change]
  exact ⟨_, rfl, rfl⟩

theorem integrate_ledger (output : Output) (orphaned : List Edge) :
    ∃ q s', p.integrate w s path output orphaned = (q, s', .ok ()) ∧
      q.store = integrated p.store path output orphaned ∧
      q.repository = p.repository.saveAll output.nodes (output.edges.map (ownEdge path) ++
        restored p.store path output orphaned) ∧ q.disk = p.disk := by
  simp only [integrate, saveOutput, call, hw _ _, change]
  exact ⟨_, _, rfl, rfl, rfl, rfl⟩

end Obliging

end Project

namespace Batch

theorem updatedFiles_succeed (b : Batch) (r : References) (path : Path) (cascaded : Bool)
    (seed : List NodeId) : (b.succeed r path cascaded seed).summary.updatedFiles ≠ [] := by
  unfold succeed
  dsimp only
  split <;> simp [enqueue]

section Obliging

variable {w : World} (hw : w.Obliging)
include hw

theorem removeStale_moves (paths : List Path) (p : Project) (s : Summary) :
    ∃ q s' found, removeStale w paths p s = (q, s', .ok found) ∧
      Ledger.Moves (p.ledger s) (q.ledger s') := by
  induction paths generalizing p s with
  | nil => exact ⟨p, s, _, rfl, .refl⟩
  | cons path paths ih =>
    obtain ⟨q, hq, hledger⟩ := Project.removeFile_ledger hw p s path
    obtain ⟨q', s', found, hrest, hmoves⟩ := ih q (s.afterRemoval (p.dropFile path).2)
    refine ⟨q', s', _, by rw [removeStale, hq]; simp only [hrest]; rfl, ?_⟩
    rw [hledger] at hmoves
    exact .head (.drop p s path) hmoves

theorem start_moves (b : Batch) (p : Project) (c : Change) (cascaded : Bool) :
    Ledger.Moves (p.ledger b.summary)
      ((b.start w p c cascaded).1.ledger (b.start w p c cascaded).2.1.summary) := by
  obtain ⟨q, s, found, hstale, hmoves⟩ :=
    removeStale_moves hw (c.source?.toList ++ [c.path]) p b.summary
  unfold start
  rw [hstale]
  dsimp only
  split
  · exact hmoves.tail (.update _ _ (updatedFiles_succeed _ _ _ _ _))
  · exact hmoves

theorem next_moves (b : Batch) (p : Project) :
    Ledger.Moves (p.ledger b.summary)
      ((b.next w p).1.ledger (b.next w p).2.1.summary) := by
  unfold next
  split
  · exact .refl
  · rename_i c cascaded rest _
    split
    · exact .single (.note _ _ rfl rfl rfl)
    · split
      · exact .refl
      · exact start_moves hw
          { b with queue := rest, processed := b.processed.insert c.path.parts } p c cascaded

theorem answer_moves (b : Batch) (p : Project) (f : InFlight) (reply : Reply) :
    Ledger.Moves (p.ledger b.summary)
      ((b.answer w p f reply).1.ledger (b.answer w p f reply).2.summary) := by
  have hcancel : ∀ s, (if reply.cancels then p.cancel else p).ledger s = p.ledger s := by
    intro s
    split <;> rfl
  unfold answer
  dsimp only
  rw [← hcancel]
  generalize (if reply.cancels then p.cancel else p) = q
  cases reply.outcome with
  | error cause => exact .single (.note _ _ rfl rfl rfl)
  | ok output =>
    obtain ⟨q', s', hi, hstore, hrepository, hdisk⟩ :=
      Project.integrate_ledger hw q b.summary f.change.path output f.orphaned
    have hmove := Ledger.Move.take q b.summary _ f.change.path output f.orphaned
      (updatedFiles_succeed { b with summary := s' } q'.references f.change.path f.cascaded
        (f.seed ++ output.nodes.map Node.id))
    rw [← hstore, ← hrepository, ← hdisk] at hmove
    simp only [hi]
    exact .single hmove

end Obliging

end Batch

/-- **Every step of a batch is made of moves.** -/
theorem Moment.Step.moves {w : World} (hw : w.Obliging) {m m' : Moment} (hs : Step w m m') :
    Ledger.Moves m.ledger m'.ledger := by
  have hnext : ∀ {p p' : Project} {b b' : Batch} {progress : Progress},
      b.next w p = (p', b', progress) →
      Ledger.Moves (p.ledger b.summary) (p'.ledger b'.summary) := by
    intro p p' b b' progress hn
    have hmoves := b.next_moves hw p
    rwa [hn] at hmoves
  cases hs with
  | finished hn => exact hnext hn
  | handled hn => exact hnext hn
  | @asked p b p' b' f hn =>
    -- Asking the analyzer leaves the ledger alone.
    have hmoves : Ledger.Moves (p.ledger b.summary) (p'.ledger b'.summary) := hnext hn
    exact hmoves
  | answered => exact Batch.answer_moves hw _ _ _ _
  | cancelled => exact .refl

/-! ## The main statement -/

/-- The repository holds the live graph. -/
structure Ledger.Mirrored (l : Ledger) : Prop where
  repository : l.repository.store = l.store
  coherent : l.store.Coherent

theorem Ledger.Mirrored.move {l l' : Ledger} (hm : Move l l') (h : l.Mirrored) : l'.Mirrored := by
  cases hm with
  | drop p s path =>
    have hdropped := Project.dropped_dropFile h.coherent path
    exact ⟨Project.store_forgetFile_eq h.coherent h.repository path, hdropped.coherent⟩
  | take p s s' path output orphaned =>
    have hsame : p.repository.store = p.store := h.repository
    refine ⟨?_, Project.coherent_integrated h.coherent _ _ _⟩
    rw [Repository.store_saveAll, hsame, Project.integrated_eq]
  | update => exact ⟨h.repository, h.coherent⟩
  | note => exact ⟨h.repository, h.coherent⟩

theorem Ledger.Mirrored.moves {l l' : Ledger} (hm : Moves l l') (h : l.Mirrored) :
    l'.Mirrored := by
  induction hm with
  | refl => exact h
  | tail _ hm ih => exact ih.move hm

namespace Project

/-- A project that has taken over the graph of a repository, which operations had led to. -/
def Hydrated (p : Project) : Prop :=
  ∃ w q ops, q.repository.store = Store.run ops ∧ Project.hydrate w q = (p, .ok ())

theorem hydrate_eq_ok {w : World} {p q : Project} (h : q.hydrate w = (p, .ok ())) :
    ∃ d r, q.repository.setUp q.disk = (d, r, .ok ()) ∧
      p = { q with disk := d, repository := r, calls := q.calls + 2 }.adopt r.graph := by
  rcases hset : q.repository.setUp q.disk with ⟨d, r, e | _⟩
  · cases hw : w.refusal? q.calls .setUp <;>
      simp [hydrate, call, withDisk, hset, hw, Except.mapError] at h
  · refine ⟨d, r, rfl, ?_⟩
    cases hw : w.refusal? q.calls .setUp <;> cases hw' : w.refusal? (q.calls + 1) .load <;>
      simp [hydrate, call, withDisk, change, hset, hw, hw', Except.mapError] at h
    exact h.symm

theorem mirrored_hydrated {p : Project} (h : p.Hydrated) (s : Summary) :
    (p.ledger s).Mirrored := by
  obtain ⟨w, q, ops, hops, hp⟩ := h
  obtain ⟨d, r, hset, rfl⟩ := hydrate_eq_ok hp
  have hcoherent := Repository.coherent_setUp (hops ▸ Store.coherent_run ops) hset
  have hsame : Store.ofSnapshot r.graph = r.store := Store.ofSnapshot_snapshot hcoherent
  exact ⟨hsame.symm, Store.coherent_ofSnapshot _⟩

/-- What the end of a batch does to the repository and the disk: if some file was updated, and
unless the repository refuses, the graph is written to its file. -/
theorem stored_finish (w : World) (p : Project) (b : Batch) :
    ((p.finish w b).1.disk, (p.finish w b).1.repository) =
      if b.summary.updatedFiles = [] ∨ (w.refusal? p.calls .flush).isSome then
        (p.disk, p.repository)
      else
        ((p.repository.flushWith w.refusesStep p.disk w.now).1,
          (p.repository.flushWith w.refusesStep p.disk w.now).2.1) := by
  have hpublish : ∀ (files : List Path) (f : Path → UpdateEvent) (p : Project),
      let q := files.foldl (fun p file => p.publish (f file)) p
      (q.disk, q.repository) = (p.disk, p.repository) := by
    intro files f
    induction files with
    | nil => exact fun _ => rfl
    | cons file files ih => exact fun p => ih _
  have hflush : let q := (p.flushBatch w b.summary).1
      (q.disk, q.repository) = if b.summary.updatedFiles = [] ∨
          (w.refusal? p.calls .flush).isSome then (p.disk, p.repository)
        else ((p.repository.flushWith w.refusesStep p.disk w.now).1,
          (p.repository.flushWith w.refusesStep p.disk w.now).2.1) := by
    unfold flushBatch call
    simp only [List.isEmpty_iff]
    by_cases hu : b.summary.updatedFiles = []
    · simp only [hu, if_true, true_or]
    · simp only [hu, if_false, false_or]
      cases w.refusal? p.calls .flush with
      | some message => exact hpublish _ _ _
      | none =>
        simp only [withDisk]
        rcases p.repository.flushWith w.refusesStep p.disk w.now with ⟨d, r, e | _⟩
        · exact hpublish _ _ _
        · rfl
  unfold finish
  dsimp only at hflush ⊢
  split <;> exact hflush

end Project

/-- The course of a project whose repository refuses nothing, from nothing or from a stored
graph. -/
def Regime.obliging : Regime where
  starts p := (p.Fresh ∧ p.repository.store = .empty) ∨ p.Hydrated
  world w := w.Obliging

/-- **The repository mirrors the live graph**: after every batch, and at every moment of one. -/
theorem Regime.Live.repository_eq_store {p : Project} (h : Regime.obliging.Live p) :
    p.repository.graph = p.store.snapshot := by
  have hmirrored : ∀ s, (p.ledger s).Mirrored := by
    refine h.invariant (I := fun p => ∀ s, (p.ledger s).Mirrored)
      (J := fun m => m.ledger.Mirrored) ?_ ?_ ?_ ?_ ?_
    · rintro p (⟨⟨hstore, -, -⟩, hrepository⟩ | hp) s
      · have hcoherent : p.store.Coherent := hstore ▸ Store.coherent_empty
        exact ⟨hrepository.trans hstore.symm, hcoherent⟩
      · exact Project.mirrored_hydrated hp s
    · exact fun p task _ hp => hp _
    · exact fun w m m' hw hs hm => hm.moves (hs.moves hw)
    · exact fun m hm s => ⟨hm.repository, hm.coherent⟩
    · intro w m hm s
      have hstore := (Project.keeps_finish w m.project m.batch).store
      have hrepository : (m.project.finish w m.batch).1.repository.store =
          m.project.repository.store := by
        have hstored := congrArg (fun x => x.2.store) (Project.stored_finish w m.project m.batch)
        refine hstored.trans ?_
        split
        · rfl
        · exact Repository.store_flushWith ..
      have hcoherent : (m.project.finish w m.batch).1.store.Coherent := hstore ▸ hm.coherent
      exact ⟨hrepository.trans (hm.repository.trans hstore.symm), hcoherent⟩
  exact congrArg Store.snapshot (hmirrored { sequence := 0 }).repository

/-- An analyzer that finds every file to call `a.cs`, and fails on `b.cs` once that is unknown. -/
def losesA : World where
  analyze _ r :=
    { outcome := if r.path.text = "b.cs" ∧ "a.cs" ∉ r.ids then .error (.text "a.cs is unknown")
        else .ok { nodes := [.ofFile r.path], edges := [.ofCall r.path ⟨"a.cs"⟩] } }
  refusal? _ _ := none

/-- A project after two files were indexed and one of them moved, on which the other failed. -/
def Project.moved : Project :=
  ((Assignment.process [.renamed ⟨"a.cs"⟩ ⟨"c.cs"⟩] true).apply losesA
    ((Assignment.index [⟨"a.cs"⟩, ⟨"b.cs"⟩]).apply losesA Project.unread).1).1

/-- The file that moved is all that either graph holds. -/
theorem Regime.Live.repository_eq_store_moved :
    Project.moved.store.allNodes.map Node.id = ["c.cs"] ∧ Regime.obliging.Live Project.moved ∧
    Project.moved.repository.graph = Project.moved.store.snapshot := by
  have hunread : Regime.obliging.Live Project.unread :=
    .start (.inl ⟨Project.fresh_unread, rfl⟩)
  have hmoved : Regime.obliging.Live Project.moved :=
    .done (.done hunread (fun _ _ => rfl) trivial) (fun _ _ => rfl) trivial
  exact ⟨by decide +kernel, hmoved, Regime.Live.repository_eq_store hmoved⟩

end CodeGraph

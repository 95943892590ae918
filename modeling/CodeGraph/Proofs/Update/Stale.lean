import CodeGraph.Proofs.Update.Incremental
import CodeGraph.Proofs.Update.Replacement

/-!
# Edges of an earlier analysis

A visit drops all edges that an earlier analysis found in its file, but those of them that end at
the place from which a file is moved in are dropped with that place, before the file itself, and are
kept aside as if another file had brought them. They come back if their ends do.

* `Project.Outlives`: an edge of an earlier analysis that stays.
* **`Regime.Live.own_edges_iff`**: when a visit leaves no stale edge.
* `Regime.Live.merged_keeps_stale_edge`: a visit that leaves one.
-/

namespace CodeGraph

/-- An edge that was found in the file of a change before, ends at the place from which the file was
moved, and has both its ends afterwards. -/
structure Project.Outlives (p q : Project) (c : Change) (e : Edge) : Prop where
  stored : p.store.edge? e.id = some e
  own : e.file.map Path.parts = some c.path.parts
  moved : ∃ place, c.source? = some place ∧ place.parts ≠ c.path.parts ∧
    Project.Meets p.store place e
  source : q.store.hasNode e.source = true
  target : q.store.hasNode e.target = true

namespace Project

/-- The edges of the file at hand that come back are those that outlive the visit. -/
theorem restores_iff_outlives {p q : Project} {c : Change} {e : Edge}
    (hown : e.file.map Path.parts = some c.path.parts) :
    Restores p q c e ↔ Outlives p q c e := by
  constructor
  · rintro ⟨hstored, ⟨pre, f, post, hplaces, -, hfile, hmeets⟩, hsource, htarget⟩
    refine ⟨hstored, hown, ?_, hsource, htarget⟩
    rw [hown] at hfile
    have hmem : f ∈ c.places := hplaces ▸ List.mem_append_right _ List.mem_cons_self
    rw [Change.places, List.mem_append, Option.mem_toList, List.mem_singleton] at hmem
    rcases hmem with hmem | rfl
    · exact ⟨f, hmem, fun hparts => hfile (congrArg some hparts.symm), hmeets⟩
    · exact absurd rfl hfile
  · rintro ⟨hstored, -, ⟨place, hsource?, hparts, hmeets⟩, hsource, htarget⟩
    refine ⟨hstored, ⟨[], place, [c.path], ?_, by simp, ?_, hmeets⟩, hsource, htarget⟩
    · rw [Change.places, hsource?]
      rfl
    · rw [hown]
      exact fun hsame => hparts (Option.some.inj hsame).symm

theorem exists_handling {w : World} {p : Project} {s : Summary} {c : Change}
    (h : (p.handle w s c).2.2.isOk = true) :
    ∃ found, p.handle w s c = ((p.handle w s c).1, (p.handle w s c).2.1, .ok found) := by
  cases hr : (p.handle w s c).2.2 with
  | error e =>
    rw [hr] at h
    cases h
  | ok found => exact ⟨found, Prod.ext rfl (Prod.ext rfl hr)⟩

end Project

/-- **A visit leaves no stale edge exactly if none outlives it**, at every moment of every course of
a project: the edges in the graph that carry the file of the change are edges of the analysis at
hand, unless an edge of an earlier analysis ends at the place from which the file was moved, and has
both its ends again. Where no file was moved there is no such edge. -/
theorem Regime.Live.own_edges_iff {p q : Project} (h : Regime.any.Live p) {w : World}
    {s s' : Summary} {c : Change} {found : Handling}
    (hh : p.handle w s c = (q, s', .ok found)) :
    ((∀ e, q.store.edge? e.id = some e → e.file.map Path.parts = some c.path.parts →
        e ∈ found.output.edges.map (Project.ownEdge c.path)) ↔
      ∀ e, Project.Outlives p q c e → e ∈ found.output.edges.map (Project.ownEdge c.path)) ∧
    (c.source? = none → ∀ e, ¬ Project.Outlives p q c e) := by
  have hc := h.consistent.coherent
  refine ⟨⟨fun hfresh e he => ?_, fun hfresh e hstored hown => ?_⟩, fun hsource e he => ?_⟩
  · exact hfresh e ((Project.edge?_handle hc hh).2
      (.inl ⟨(Project.restores_iff_outlives he.own).2 he, rfl⟩)) he.own
  · rcases (Project.edge?_handle hc hh).1 hstored with ⟨he, -⟩ | ⟨-, he | ⟨-, -, hspares⟩⟩
    · exact hfresh e ((Project.restores_iff_outlives hown).1 he)
    · exact (Output.edge?_eq_some he).1
    · -- What is left of the old graph was found in other files.
      have hmem : c.path ∈ c.places := List.mem_append_right _ List.mem_cons_self
      exact absurd hown (hspares _ hmem).1
  · obtain ⟨place, hplace, -⟩ := he.moved
    rw [hsource] at hplace
    cases hplace

/-! ## A file that is moved into another -/

/-- A reader for files that say themselves what is found in them. -/
def Reader.verbatim : Reader Output := fun _ found => found

/-- A declaration that is named as a file and stands in another. -/
def Node.ofFileAt (name file : Path) : Node := { Node.ofFile name with file }

/-- Two files, of which `b.cs` calls `a.cs`. -/
def callerBeside : Contents Output := fun f =>
  if f = ⟨"a.cs"⟩ then some { nodes := [.ofFile ⟨"a.cs"⟩] }
  else if f = ⟨"b.cs"⟩ then some
    { nodes := [.ofFile ⟨"b.cs"⟩], edges := [.ofCall ⟨"b.cs"⟩ ⟨"a.cs"⟩] }
  else none

/-- One file with both declarations, and without the call. -/
def callerMerged : Contents Output := fun f =>
  if f = ⟨"b.cs"⟩ then some
    { nodes := [.ofFileAt ⟨"a.cs"⟩ ⟨"b.cs"⟩, .ofFile ⟨"b.cs"⟩] }
  else none

/-- The project after both files were indexed. -/
def Project.callerIndexed : Project :=
  ((Assignment.index [⟨"a.cs"⟩, ⟨"b.cs"⟩]).apply (Reader.verbatim.world callerBeside)
    Project.unread).1

/-- What comes of moving `a.cs` over `b.cs`. -/
def Project.callerHandled : Project × Summary × Except Error Handling :=
  Project.callerIndexed.handle (Reader.verbatim.world callerMerged) { sequence := 2 }
    (.renamed ⟨"a.cs"⟩ ⟨"b.cs"⟩)

theorem Regime.Live.callerIndexed : Regime.any.Live Project.callerIndexed :=
  .done (.start (.inl Project.fresh_unread)) trivial trivial

/-- Created anew, `b.cs` leaves no stale edge. -/
theorem Regime.Live.own_edges_iff_created :
    ∃ found, (Project.callerIndexed.handle (Reader.verbatim.world callerMerged) { sequence := 2 }
        (.created ⟨"b.cs"⟩)).2.2 = .ok found ∧
      ∀ e, (Project.callerIndexed.handle (Reader.verbatim.world callerMerged) { sequence := 2 }
          (.created ⟨"b.cs"⟩)).1.store.edge? e.id = some e →
        e.file.map Path.parts = some (Path.parts ⟨"b.cs"⟩) →
        e ∈ found.output.edges.map (Project.ownEdge ⟨"b.cs"⟩) := by
  obtain ⟨found, hfound⟩ := Project.exists_handling (p := Project.callerIndexed)
    (w := Reader.verbatim.world callerMerged) (s := { sequence := 2 })
    (c := .created ⟨"b.cs"⟩) (by decide +kernel)
  have hiff := Regime.Live.own_edges_iff Regime.Live.callerIndexed hfound
  refine ⟨found, congrArg (fun o => o.2.2) hfound, hiff.1.2 fun e he => ?_⟩
  exact absurd he (hiff.2 rfl e)

/-- The call that the earlier analysis of `b.cs` found is still there, though the analysis at hand
found no edges. -/
theorem Regime.Live.merged_keeps_stale_edge :
    Regime.any.Live Project.callerIndexed ∧
    (Project.callerHandled.2.2.toOption.map fun found => found.output.edges) = some [] ∧
    Project.callerHandled.1.store.edge? "b.cs" =
      some (Project.ownEdge ⟨"b.cs"⟩ (.ofCall ⟨"b.cs"⟩ ⟨"a.cs"⟩)) :=
  ⟨Regime.Live.callerIndexed, by decide +kernel, by decide +kernel⟩

end CodeGraph

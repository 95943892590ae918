import CodeGraph.Proofs.ChangeSet
import CodeGraph.Proofs.ReferencePairs
import CodeGraph.Proofs.Update.Closed
import CodeGraph.Proofs.Update.Visit

/-!
# The references cover the live graph

The references are not derived from the live graph but written beside it: edges go with the
declarations at their ends and come back without being recorded anew, and an edge can take the place
of one of another file. As long as no file moves, every edge of the live graph is recorded all the
same, except for containments. So no file is forgotten that would have to be analyzed again.

* `World.Owned`: an analyzer whose edges carry the file it was asked about, or none.
* `References.Covers`: the references record an edge.
* `Project.Covered`: they record every edge of the live graph; `Covered.dropFile` and
  `Covered.integrated` say how this is kept.
* `Batch.next_awaits`: the file whose analysis is awaited, and what was kept aside for it.
* **`Regime.Live.references_cover`**: the main statement.
-/

namespace CodeGraph

open Std

/-- An output whose edges carry no file but its own. -/
def Output.OwnedBy (o : Output) (path : Path) : Prop :=
  ∀ e ∈ o.edges, ∀ f, e.file = some f → f.parts = path.parts

/-- An analyzer whose edges carry the file it was asked about, or none. -/
def World.Owned (w : World) : Prop :=
  ∀ n r o, (w.analyze n r).outcome = .ok o → o.OwnedBy r.path

/-! ## Edges that are recorded -/

namespace References

/-- The references record an edge, if it stands for a pair at all. -/
def Covers (r : References) (e : Edge) : Prop :=
  ∀ k t, e.reference? = some (k, t) → t ∈ Index.bucket r.targets k

theorem Covers.mono {r r' : References} {e : Edge} (h : r.Covers e)
    (hr : ∀ {k t}, t ∈ Index.bucket r.targets k → t ∈ Index.bucket r'.targets k) : r'.Covers e :=
  fun k t he => hr (h k t he)

theorem Covers.removeFile {r : References} {e : Edge} (h : r.Covers e) {path : Path}
    (hfile : e.file.map Path.parts ≠ some path.parts) : (r.removeFile path).Covers e := by
  intro k t he
  refine mem_targets_removeFile.2 ⟨?_, h k t he⟩
  rintro rfl
  obtain ⟨-, ⟨f, hf, hparts⟩, -⟩ := Edge.reference?_eq_some.1 he
  exact hfile (by rw [hf, Option.map_some, hparts])

theorem covers_recordEdges (r : References) {path : Path} {output : Output}
    (ho : output.OwnedBy path) {e : Edge} (he : e ∈ output.edges.map (Project.ownEdge path)) :
    (Project.recordEdges r path (output.edges.map (Project.ownEdge path))).Covers e := by
  intro k t hk
  obtain ⟨hkind, ⟨f, hf, rfl⟩, rfl⟩ := Edge.reference?_eq_some.1 hk
  refine Project.mem_targets_recordEdges.2 (.inl ⟨?_, e, he, hkind, rfl⟩)
  obtain ⟨found, hfound, rfl⟩ := List.mem_map.1 he
  unfold Project.ownEdge at hf
  cases hfile : found.file with
  | some f' =>
    simp only [hfile, Option.some.injEq] at hf
    subst hf
    exact ho found hfound _ hfile
  | none =>
    simp only [hfile, Option.some.injEq] at hf
    rw [hf]

theorem mem_filesOf_ofEdges {r : References} (hr : r.Mutual) {edges : List Edge}
    (h : ∀ e ∈ edges, r.Covers e) {t : NodeId} {k : List Part}
    (hk : k ∈ (ofEdges edges).filesOf t) : k ∈ r.filesOf t := by
  have hholds := holds_empty.recordEdges edges
  have hpair := hholds.mem_targets.1 (hholds.referring.mem_filesOf.1 hk)
  rw [Finset.empty_union, List.mem_toFinset, List.mem_filterMap] at hpair
  obtain ⟨e, he, hreference⟩ := hpair
  exact hr.mem_filesOf.2 (h e he k t hreference)

end References

/-! ## What the steps keep -/

/-- The references record every edge of the live graph. -/
structure Project.Covered (p : Project) : Prop where
  consistent : p.Consistent
  edges : ∀ {i e}, p.store.edge? i = some e → p.references.Covers e

namespace Project.Covered

variable {p q : Project} (h : p.Covered)
include h

theorem congr (hstore : q.store = p.store) (hreferences : q.references = p.references) :
    q.Covered where
  consistent := h.consistent.congr hstore hreferences
  edges he := hreferences ▸ h.edges (hstore ▸ he)

theorem dropFile (path : Path) : (p.dropFile path).1.Covered := by
  have hdropped := dropped_dropFile h.consistent.coherent path
  refine ⟨⟨hdropped.coherent, h.consistent.referring.removeFile path⟩, fun he => ?_⟩
  obtain ⟨he, hfile, -⟩ := hdropped.edge?.1 he
  exact (h.edges he).removeFile hfile

/-- The edges that are kept aside belong to other files, so they stay recorded. -/
theorem orphaned (path : Path) {e : Edge} (he : e ∈ (p.dropFile path).2.orphaned) :
    (p.dropFile path).1.references.Covers e := by
  obtain ⟨he, hfile, -⟩ := (dropped_dropFile h.consistent.coherent path).mem_orphaned.1 he
  exact (h.edges he).removeFile hfile

omit h in
theorem dropFiles {p : Project} (h : p.Covered) (paths : List Path) :
    (p.dropFiles paths).1.Covered := by
  induction paths generalizing p with
  | nil => exact h
  | cons path paths ih => exact ih (h.dropFile path)

/-- An analysis is recorded as it is taken in, and an edge that comes back was recorded before. -/
theorem integrated {path : Path} {output : Output} {orphaned : List Edge}
    (ho : output.OwnedBy path) (haside : ∀ e ∈ orphaned, p.references.Covers e)
    (hstore : q.store = Project.integrated p.store path output orphaned)
    (hreferences : q.references =
      recordEdges p.references path (output.edges.map (ownEdge path))) : q.Covered := by
  refine ⟨h.consistent.integrated hstore hreferences, fun {i e} he => ?_⟩
  have hkept : ∀ {e}, p.references.Covers e → q.references.Covers e := fun he =>
    he.mono fun ht => hreferences ▸ mem_targets_recordEdges.2 (.inr ht)
  rw [hstore, edge?_integrated, Option.or_eq_some_iff, Option.or_eq_some_iff] at he
  rcases he with (he | ⟨-, he⟩) | ⟨-, he⟩
  · have hrestored := List.mem_reverse.1 (List.mem_of_find?_eq_some he)
    exact hkept (haside e (List.mem_filter.1 hrestored).1)
  · have hown := List.mem_reverse.1 (List.mem_of_find?_eq_some he)
    exact hreferences ▸ References.covers_recordEdges p.references ho hown
  · exact hkept (h.edges he)

theorem answer (w : World) (b : Batch) {f : InFlight} {reply : Reply}
    (haside : ∀ e ∈ f.orphaned, p.references.Covers e)
    (ho : ∀ o, reply.outcome = .ok o → o.OwnedBy f.change.path) :
    (b.answer w p f reply).1.Covered := by
  have hrespond : (p.respond w b.summary f reply).1.Covered := by
    obtain ⟨q, s, ⟨hstore, hreferences, e, hr⟩ | ⟨output, hok, hstore, hreferences, hr⟩⟩ :=
      p.respond_cases w b.summary f reply
    · rw [hr]
      exact h.congr hstore hreferences
    · have hq := h.integrated (ho output hok) haside hstore hreferences
      rcases hr with ⟨e, hr⟩ | hr
      · rwa [hr]
      · rwa [hr]
  rw [Batch.answer_eq_respond]
  revert hrespond
  rcases p.respond w b.summary f reply with ⟨q, s, e | found⟩
  · exact fun hq => hq.congr rfl rfl
  · exact id

end Project.Covered

namespace Batch

/-- No file of the queue was moved. -/
def Plain (b : Batch) : Prop := ∀ c ∈ b.queue, c.1.source? = none

theorem Plain.succeed {b : Batch} (h : b.Plain) (r : References) (path : Path) (cascaded : Bool)
    (seed : List NodeId) : (b.succeed r path cascaded seed).Plain := by
  unfold Batch.succeed
  dsimp only
  split
  · intro c hc
    rcases List.mem_append.1 hc with hc | hc
    · exact h c hc
    · obtain ⟨f, -, rfl⟩ := List.mem_map.1 hc
      rfl
  · exact h

theorem Plain.start {b : Batch} (h : b.Plain) (w : World) (p : Project) (c : Change)
    (cascaded : Bool) : (b.start w p c cascaded).2.1.Plain := by
  unfold Batch.start
  rcases removeStale w (c.source?.toList ++ [c.path]) p b.summary with
    ⟨q, s, e | ⟨seed, orphaned⟩⟩
  · exact h
  · dsimp only
    split
    · exact Plain.succeed (b := { b with summary := s }) h q.references c.path cascaded seed
    · exact h

theorem Plain.next {b : Batch} (h : b.Plain) (w : World) (p : Project) :
    (b.next w p).2.1.Plain := by
  unfold Batch.next
  split
  · exact h
  · rename_i c cascaded rest hqueue
    have hrest : ∀ b' : Batch, b'.queue = rest → b'.Plain := fun b' hb' c hc =>
      h c (hqueue ▸ List.mem_cons_of_mem _ (hb' ▸ hc))
    split
    · exact hrest _ rfl
    · split
      · exact hrest _ rfl
      · exact Plain.start (hrest _ rfl) w p c cascaded

theorem Plain.answer {b : Batch} (h : b.Plain) (w : World) (p : Project) (f : InFlight)
    (reply : Reply) : (b.answer w p f reply).2.Plain := by
  rw [answer_eq_respond]
  rcases p.respond w b.summary f reply with ⟨q, s, e | found⟩
  · exact h
  · exact Plain.succeed (b := { b with summary := s }) h _ _ _ _

theorem next_awaits {w : World} {b b' : Batch} {p p' : Project} {f : InFlight}
    (h : b.next w p = (p', b', .awaits f)) :
    (f.change, f.cascaded) ∈ b.queue ∧ Project.Keeps (p.dropFiles f.change.places).1 p' ∧
      f.orphaned = (p.dropFiles f.change.places).2.2 := by
  unfold next at h
  split at h
  · cases h
  · rename_i c cascaded rest hqueue
    split at h
    · cases h
    · split at h
      · cases h
      · unfold start at h
        rcases hstale : removeStale w (c.source?.toList ++ [c.path]) p b.summary with
          ⟨q, s, e | ⟨seed, orphaned⟩⟩
        · simp [hstale] at h
        · obtain ⟨hkeeps, hfound⟩ := removeStale_eq_ok hstale
          simp only [hstale] at h
          split at h
          · cases h
          · cases h
            refine ⟨hqueue ▸ List.mem_cons_self, hkeeps, ?_⟩
            exact congrArg Prod.snd hfound

end Batch

/-- At a moment of a batch without renames the references record every edge of the live graph, and
those that are kept aside until an answer comes. -/
structure Moment.Covered (m : Moment) : Prop where
  project : m.project.Covered
  plain : m.batch.Plain
  awaited : ∀ f reply, m.awaited = some (f, reply) →
    (∀ e ∈ f.orphaned, m.project.references.Covers e) ∧
      ∀ o, reply.outcome = .ok o → o.OwnedBy f.change.path

namespace Moment

theorem covered_idle {p : Project} {b : Batch} (hp : p.Covered) (hb : b.Plain) :
    Covered ⟨p, b, none⟩ := ⟨hp, hb, fun _ _ hf => by simp at hf⟩

theorem covered_first {p : Project} (h : p.Covered) {task : Assignment}
    (ht : ∀ c ∈ task.changes, c.source? = none) : (task.first p).Covered := by
  refine covered_idle (h.congr rfl rfl) fun c hc => ?_
  obtain ⟨d, hd, rfl⟩ := List.mem_map.1 hc
  have hplain : ∀ c ∈ task.changes.map (Project.normalizeChange p.root), c.source? = none := by
    intro c hc
    obtain ⟨d, hd, rfl⟩ := List.mem_map.1 hc
    have hsource := ht d hd
    revert hsource
    unfold Project.normalizeChange Change.source?
    cases d.kind <;> simp
  have hlast := (mem_settle_of_plain hplain).1 hd
  exact hplain d (List.mem_reverse.1 (List.mem_of_find?_eq_some hlast))

theorem Covered.step {w : World} (hw : w.Owned) {m m' : Moment} (hs : Step w m m')
    (h : m.Covered) : m'.Covered := by
  have hnext : ∀ {p p' : Project} {b b' : Batch} {progress : Progress},
      b.next w p = (p', b', progress) → p.Covered → b.Plain → p'.Covered ∧ b'.Plain := by
    intro p p' b b' progress hn hp hb
    obtain ⟨dropped, hkeeps⟩ := b.next_drops w p
    have hplain := hb.next w p
    rw [hn] at hkeeps hplain
    exact ⟨(hp.dropFiles dropped).congr hkeeps.store hkeeps.references, hplain⟩
  cases hs with
  | finished hn => exact covered_idle (hnext hn h.project h.plain).1 (hnext hn h.project h.plain).2
  | handled hn => exact covered_idle (hnext hn h.project h.plain).1 (hnext hn h.project h.plain).2
  | @asked p b p' b' f hn =>
    obtain ⟨hproject, hplain⟩ := hnext hn h.project h.plain
    obtain ⟨hqueue, hkeeps, horphaned⟩ := Batch.next_awaits hn
    refine ⟨hproject.congr rfl rfl, hplain, fun f' reply hf => ?_⟩
    obtain ⟨rfl, rfl⟩ := Prod.mk.inj (Option.some.inj hf)
    refine ⟨fun e he => ?_, fun o ho => hw _ _ o ho⟩
    -- The file was not moved, so it is the only one that was dropped.
    have hplaces : f.change.places = [f.change.path] := by
      rw [Change.places, h.plain _ hqueue]
      rfl
    rw [horphaned, hplaces] at he
    change p'.references.Covers e
    rw [hkeeps.references, hplaces]
    exact Project.Covered.orphaned h.project f.change.path (by simpa [Project.dropFiles] using he)
  | @answered p b f reply =>
    obtain ⟨haside, ho⟩ := h.awaited f reply rfl
    exact covered_idle (h.project.answer w b haside ho) (h.plain.answer w p f reply)
  | cancelled => exact ⟨h.project.congr rfl rfl, h.plain, h.awaited⟩

end Moment

/-! ## The main statement -/

/-- The course of a project without renames, from nothing or from a stored graph, with an analyzer
whose edges carry their own file. The analyzer and the repository may fail, and batches may stop. -/
def Regime.owned : Regime where
  starts p := p.Fresh ∨ ∃ w q, Project.hydrate w q = (p, .ok ())
  world w := w.Owned
  task t := ∀ c ∈ t.changes, c.source? = none

theorem Project.covered_hydrated {w : World} {p q : Project} (h : q.hydrate w = (p, .ok ())) :
    p.Covered := by
  obtain ⟨d, r, -, rfl⟩ := Project.hydrate_eq_ok h
  have hcoherent := Store.coherent_ofSnapshot r.graph
  have hholds := References.holds_empty.recordEdges (Store.ofSnapshot r.graph).allEdges
  refine ⟨⟨hcoherent, hholds.referring⟩, fun {i e} he k t hreference => ?_⟩
  have hid := hcoherent.edge_id he
  have hmem : e ∈ (Store.ofSnapshot r.graph).allEdges :=
    (Store.mem_allEdges hcoherent).2 (hid ▸ he)
  refine hholds.mem_targets.2 (Finset.mem_union_right _ ?_)
  exact List.mem_toFinset.2 (List.mem_filterMap.2 ⟨e, hmem, hreference⟩)

/-- **The references cover the live graph**: the file of every edge, unless that is a containment,
stands with the declaration at which the edge ends. So whatever references the edges of the live
graph carry are among the live ones. -/
theorem Regime.Live.references_cover {p : Project} (h : Regime.owned.Live p) :
    (∀ e ∈ p.store.allEdges, e.kind ≠ .contains → ∀ f, e.file = some f →
      f.parts ∈ p.references.filesOf e.target) ∧
    ∀ n k, k ∈ (References.ofEdges p.store.allEdges).filesOf n → k ∈ p.references.filesOf n := by
  have hcovered : p.Covered := by
    refine h.invariant (I := Project.Covered) (J := Moment.Covered) ?_ ?_ ?_ ?_ ?_
    · rintro p (⟨hstore, hreferences, -⟩ | ⟨w, q, hp⟩)
      · refine ⟨⟨hstore ▸ Store.coherent_empty, hreferences ▸ References.mutual_empty⟩,
          fun he => ?_⟩
        simp [hstore, Store.empty, Store.edge?] at he
      · exact Project.covered_hydrated hp
    · exact fun p task ht hp => Moment.covered_first hp ht
    · exact fun w m m' hw hs hm => hm.step hw hs
    · exact fun m hm => hm.project
    · intro w m hm
      have hkeeps := Project.keeps_finish w m.project m.batch
      exact hm.project.congr hkeeps.store hkeeps.references
  have hreferring := hcovered.consistent.referring
  have hedges : ∀ e ∈ p.store.allEdges, p.references.Covers e := fun e he =>
    hcovered.edges ((Store.mem_allEdges hcovered.consistent.coherent).1 he)
  refine ⟨fun e he hkind f hf => ?_, fun n k => References.mem_filesOf_ofEdges hreferring hedges⟩
  exact hreferring.mem_filesOf.2
    (hedges e he _ _ (Edge.reference?_eq_some.2 ⟨hkind, ⟨f, hf, rfl⟩, rfl⟩))

theorem owned_callsA : callsA.Owned := by
  intro n r o ho e he f hf
  simp only [callsA, Except.ok.injEq] at ho
  subst ho
  split at he
  · obtain rfl := List.mem_singleton.1 he
    simp [Edge.ofCall] at hf
  · simp at he

/-- The second file still stands with the first, which was analyzed again. -/
theorem Regime.Live.references_cover_reread :
    Project.reread.store.allEdges.map (fun e => (e.file, e.target)) =
      [(some ⟨"b.cs"⟩, "a.cs")] ∧ Regime.owned.Live Project.reread ∧
    ∀ e ∈ Project.reread.store.allEdges, e.kind ≠ .contains → ∀ f, e.file = some f →
      f.parts ∈ Project.reread.references.filesOf e.target := by
  have hunread : Regime.owned.Live Project.unread := .start (.inl Project.fresh_unread)
  have hindexed : Regime.owned.Live
      ((Assignment.index [⟨"a.cs"⟩, ⟨"b.cs"⟩]).apply callsA Project.unread).1 :=
    .done hunread owned_callsA
      (by simp [Regime.owned, Assignment.changes, Change.created, Change.source?])
  have hreread : Regime.owned.Live Project.reread :=
    .done hindexed owned_callsA
      (by simp [Regime.owned, Assignment.changes, Change.modified, Change.source?])
  exact ⟨by decide, hreread, (Regime.Live.references_cover hreread).1⟩

end CodeGraph

import CodeGraph.Proofs.ChangeSet
import CodeGraph.Proofs.Update.Moment
import CodeGraph.Proofs.Update.Reader

/-!
# Incremental maintenance is as good as starting over

Batch after batch is told which files changed, and analyzes these and the files that refer to their
declarations. Afterwards the graph is the one that an analysis of all files finds: the same
declarations, and the same edges among those that have both ends.

Within a batch, an edge that was found is in the graph, or its file waits in the queue, or its
target is not there. In the last case the file is still unseen, and is pulled in when the target
appears, or the target's own file is done, and the target does not appear in this batch.

* `Batch.Waits`: a file is in the queue and not handled yet.
* `Underway`: the invariant of a batch.
* `Underway.complete_advance`, **`Underway.progress`**: every turn keeps it.
* `Maintained`: a project that was told of all changes of its files.
* **`Maintained.equals_scratch`**: the main statement.
-/

namespace CodeGraph

open Std

/-! ## What a batch is told -/

/-- The change says of its file what is there: it is deleted if the file is gone, and created or
modified if not. -/
structure Change.Tells {γ : Type} (root : ProjectRoot) (files : Contents γ) (c : Change) :
    Prop where
  source? : c.source? = none
  tidy : root.Tidy c.path
  isDeletion : c.isDeletion = true ↔ files c.path = none

/-- The analyzer finds in every file what a reader finds, and never fails there. -/
def World.Reads {γ : Type} (w : World) (read : Reader γ) (files : Contents γ) : Prop :=
  ∀ n r c, files r.path = some c → w.analyze n r = { outcome := .ok (read r.path c) }

/-! ## The queue -/

namespace Batch

/-- A file is in the queue and not handled yet. -/
def Waits (b : Batch) (k : List Part) : Prop := k ∈ b.keys ∧ k ∉ b.processed

end Batch

/-! ## The invariant of a batch -/

/-- The middle of a batch: the graph reflects `cur`, which differs from the `files` that there are
only where a file waits. -/
structure Underway {γ : Type} (read : Reader γ) (owner : NodeId → Path) (files cur : Contents γ)
    (p : Project) (b : Batch) : Prop where
  reflects : Reflects read cur p
  complete : ∀ {f e}, e ∈ (read.find f (cur f)).edges →
    p.store.edge? e.id = some (Project.ownEdge f e) ∨ b.Waits f.parts ∨
      (p.store.hasNode e.target = false ∧
        (f.parts ∉ b.processed ∨ (owner e.target).parts ∈ b.processed))
  settled : ∀ {f}, ¬ b.Waits f.parts → cur f = files f
  tidy : ∀ {f}, files f ≠ none → p.root.Tidy f
  tells : ∀ {c cascaded}, (c, cascaded) ∈ b.queue → c.Tells p.root files
  queued : ∀ {k}, k ∈ b.keys → k ∈ b.queued
  seen : ∀ {k}, k ∈ b.queued → k ∈ b.processed ∨ k ∈ b.keys
  cascade : b.cascade = true
  cancelled : p.cancelled = false

namespace Underway

variable {γ : Type} {read : Reader γ} {owner : NodeId → Path} {files cur : Contents γ}
  {p : Project} {b : Batch} {c : Change} {cascaded : Bool} {rest : List (Change × Bool)}

theorem skip (h : Underway read owner files cur p b) (hqueue : b.queue = (c, cascaded) :: rest)
    (hold : c.path.parts ∈ b.processed) :
    Underway read owner files cur p { b with queue := rest } := by
  have hkeys : ∀ {k}, k ∈ b.keys ↔
      k = c.path.parts ∨ k ∈ ({ b with queue := rest } : Batch).keys := by
    intro k
    simp [Batch.keys, hqueue]
  have hwaits : ∀ {k}, b.Waits k ↔ ({ b with queue := rest } : Batch).Waits k := by
    intro k
    rw [Batch.Waits, hkeys, Batch.Waits]
    constructor
    · rintro ⟨rfl | hk, hnew⟩
      · exact absurd hold hnew
      · exact ⟨hk, hnew⟩
    · exact fun hk => ⟨.inr hk.1, hk.2⟩
  refine ⟨h.reflects, fun he => ?_, fun hf => h.settled (hwaits.not.2 hf), h.tidy, fun hc => ?_,
    fun hk => h.queued (hkeys.2 (.inr hk)), fun hk => ?_, h.cascade, h.cancelled⟩
  · rw [← hwaits]
    exact h.complete he
  · exact h.tells (hqueue ▸ List.mem_cons_of_mem _ hc)
  · rcases h.seen hk with hk | hk
    · exact .inl hk
    · rcases hkeys.1 hk with rfl | hk
      · exact .inl hold
      · exact .inr hk

section Refresh

variable (h : Underway read owner files cur p b) (hqueue : b.queue = (c, cascaded) :: rest)
  (s : Summary) {q : Project} {seed : List NodeId}

include h

include hqueue in
/-- A file that waits goes on waiting while another one is handled. -/
theorem waits_advance {k : List Part} (hk : b.Waits k) (hne : k ≠ c.path.parts) :
    (b.advance c.path cascaded s q.references seed).Waits k := by
  rw [Batch.Waits, Batch.mem_keys_advance h.cascade, Batch.mem_processed_advance, not_or]
  exact ⟨.inl (((Batch.mem_keys_taken hqueue s).1 hk.1).resolve_left hne), hne, hk.2⟩

/-- A file that is pulled in waits, under the parts that it is spelled with. -/
theorem waits_dependent (hr : q.references.Mutual) {f : Path}
    (hf : f ∈ (b.taken c.path s).dependents q.references seed) :
    (b.advance c.path cascaded s q.references seed).Waits f.parts := by
  obtain ⟨-, hprocessed, -⟩ := Batch.mem_dependents hr hf
  rw [Batch.mem_processed_taken] at hprocessed
  rw [Batch.Waits, Batch.mem_keys_advance h.cascade, Batch.mem_processed_advance]
  exact ⟨.inr (List.mem_map_of_mem hf), hprocessed⟩

variable (hl : read.Local owner) (hnew : c.path.parts ∉ b.processed)
  (hq : p.Refreshed c.path (read.find c.path (files c.path)) q)
  (hseed : ∀ n ∈ (read.find c.path (files c.path)).nodes, n.id ∈ seed)

include hqueue in
theorem tidy_head : p.root.Tidy c.path :=
  (h.tells (hqueue ▸ List.mem_cons_self : (c, cascaded) ∈ b.queue)).tidy

include hqueue hl hq in
theorem reflects_advance :
    Reflects read (Function.update cur c.path (files c.path)) q :=
  h.reflects.refreshed hl (h.tidy_head hqueue) hq

include hqueue in
theorem parts_ne_head {f : Path} {e : Edge} (hf : f ≠ c.path)
    (he : e ∈ (read.find f (cur f)).edges) : f.parts ≠ c.path.parts := by
  obtain ⟨content, hcontent, -⟩ := Reader.mem_edges_find.1 he
  exact h.reflects.parts_ne (h.tidy_head hqueue) (by simp [hcontent]) hf

include hqueue hl hq in
theorem edge?_advance {f : Path} {e : Edge} (hf : f ≠ c.path)
    (he : e ∈ (read.find f (cur f)).edges)
    (hs : p.store.edge? e.id = some (Project.ownEdge f e)) :
    q.store.edge? e.id = some (Project.ownEdge f e) ∨
      (q.store.hasNode e.target = false ∧ (owner e.target).parts = c.path.parts) := by
  have hparts := h.parts_ne_head hqueue hf he
  have hfile : (Project.ownEdge f e).file.map Path.parts ≠ some c.path.parts := by
    rw [hl.file_ownEdge he]
    exact fun hsame => hparts (Option.some.inj hsame)
  have hsource := (h.reflects_advance hqueue hl hq).hasNode_source hl (f := f) (e := e)
    (by rwa [Function.update_of_ne hf])
  rw [hq.store.edge?, Project.Meets, Project.ownEdge_source, Project.ownEdge_target]
  by_cases htarget : q.store.hasNode e.target = true
  · exact .inl (.inr ⟨hs, hfile, fun _ => ⟨hsource.1, htarget⟩⟩)
  · by_cases hmeets : ∃ n, (p.store.node? e.source = some n ∨ p.store.node? e.target = some n) ∧
        n.file.parts = c.path.parts
    · obtain ⟨n, hn | hn, hn'⟩ := hmeets
      · -- The edge starts in its own file, not in the one at hand.
        rw [← h.reflects.owner_eq hl hn, hsource.2] at hn'
        exact absurd hn' hparts
      · rw [← h.reflects.owner_eq hl hn] at hn'
        exact .inr ⟨by simpa using htarget, hn'⟩
    · exact .inl (.inr ⟨hs, hfile, fun hm => absurd hm hmeets⟩)

include hqueue hl hnew hq hseed in
/-- If the target of an edge appears, its file waits, unless it was handled before. -/
theorem waits_of_appears {f : Path} {e : Edge} (hf : f ≠ c.path)
    (he : e ∈ (read.find f (cur f)).edges) (hgone : p.store.hasNode e.target = false)
    (htarget : q.store.hasNode e.target = true)
    (hfree : f.parts ∉ b.processed ∨ (owner e.target).parts ∈ b.processed) :
    (b.advance c.path cascaded s q.references seed).Waits f.parts := by
  have hreflects := h.reflects_advance hqueue hl hq
  have hparts := h.parts_ne_head hqueue hf he
  have hkind : e.kind ≠ .contains := by
    intro hkind
    rw [h.reflects.hasNode_target hl he hkind] at hgone
    cases hgone
  -- The target is among the new declarations of the file at hand, which was not handled before.
  obtain ⟨n, hn⟩ := Store.hasNode_iff.1 htarget
  have hfound : n ∈ (read.find c.path (files c.path)).nodes ∧ n.id = e.target := by
    rcases hq.store.node?.1 hn with hn | ⟨hn, -⟩
    · exact hn
    · rw [Store.hasNode_iff.2 ⟨n, hn⟩] at hgone
      cases hgone
  have hprocessed : f.parts ∉ b.processed := by
    obtain ⟨content', -, hm⟩ := Reader.mem_nodes_find.1 hfound.1
    rw [← hfound.2, hl.node_owner hm] at hfree
    exact hfree.resolve_right hnew
  have hrefers : f.parts ∈ q.references.filesOf e.target := by
    rw [hreflects.referring.mem_filesOf, hreflects.refers]
    exact ⟨f, rfl, e, by rwa [Function.update_of_ne hf], hkind, rfl⟩
  by_cases hqueued : f.parts ∈ b.queued
  · exact h.waits_advance hqueue s ⟨(h.seen hqueued).resolve_left hprocessed, hprocessed⟩ hparts
  · obtain ⟨f', hf', hsame⟩ := Batch.exists_dependent (b := b.taken c.path s) hreflects.referring
      (hfound.2 ▸ hseed n hfound.1) hrefers
      (by rw [Batch.mem_processed_taken, not_or]; exact ⟨hparts, hprocessed⟩) hqueued
    rw [← hsame]
    exact h.waits_dependent s hreflects.referring hf'

include hqueue hl hnew hq hseed in
/-- **Every edge that was found is accounted for after a turn.** -/
theorem complete_advance {f : Path} {e : Edge}
    (he : e ∈ (read.find f (Function.update cur c.path (files c.path) f)).edges) :
    q.store.edge? e.id = some (Project.ownEdge f e) ∨
      (b.advance c.path cascaded s q.references seed).Waits f.parts ∨
      (q.store.hasNode e.target = false ∧
        (f.parts ∉ (b.advance c.path cascaded s q.references seed).processed ∨
          (owner e.target).parts ∈
            (b.advance c.path cascaded s q.references seed).processed)) := by
  simp only [Batch.mem_processed_advance]
  by_cases hf : f = c.path
  · subst hf
    rw [Function.update_self] at he
    exact .inl (hq.store.edge?.2 (.inl ⟨List.mem_map_of_mem he, Project.ownEdge_id _ e⟩))
  · rw [Function.update_of_ne hf] at he
    have hparts := h.parts_ne_head hqueue hf he
    rcases h.complete he with hs | hwaits | ⟨hgone, hfree⟩
    · rcases h.edge?_advance hqueue hl hq hf he hs with hs | ⟨hgone, howner⟩
      · exact .inl hs
      · exact .inr (.inr ⟨hgone, .inr (.inl howner)⟩)
    · exact .inr (.inl (h.waits_advance hqueue s hwaits hparts))
    · by_cases htarget : q.store.hasNode e.target = true
      · exact .inr (.inl (h.waits_of_appears hqueue s hl hnew hq hseed hf he hgone htarget hfree))
      · refine .inr (.inr ⟨by simpa using htarget, ?_⟩)
        rcases hfree with hfree | hfree
        · exact .inl (not_or.2 ⟨hparts, hfree⟩)
        · exact .inr (.inr hfree)

include hqueue in
theorem settled_advance {f : Path}
    (hf : ¬ (b.advance c.path cascaded s q.references seed).Waits f.parts) :
    Function.update cur c.path (files c.path) f = files f := by
  by_cases he : f = c.path
  · rw [he, Function.update_self]
  · rw [Function.update_of_ne he]
    by_cases hparts : f.parts = c.path.parts
    · -- Another spelling of the path names no file.
      have hcur : cur f = none := by
        by_contra hne
        exact h.reflects.parts_ne (h.tidy_head hqueue) hne he hparts
      have hfiles : files f = none := by
        by_contra hne
        exact he ((h.tidy hne).eq (h.tidy_head hqueue) hparts)
      rw [hcur, hfiles]
    · exact h.settled fun hw => hf (h.waits_advance hqueue s hw hparts)

include hqueue hl hq in
theorem tells_dependent {f : Path} (hf : f ∈ (b.taken c.path s).dependents q.references seed) :
    (Change.modified f).Tells p.root files := by
  have hreflects := h.reflects_advance hqueue hl hq
  obtain ⟨⟨t, -, hk⟩, hprocessed, hqueued⟩ := Batch.mem_dependents hreflects.referring hf
  have htidy := hreflects.tidy_referring hk
  refine ⟨rfl, hq.root ▸ htidy, ?_⟩
  have hmem : f.parts ∈ q.references.filesOf t :=
    ExtTreeMap.mem_iff_isSome_getElem?.2 (by rw [hk]; rfl)
  obtain ⟨f', hsame, e, he, -⟩ := hreflects.refers.1 (hreflects.referring.mem_filesOf.1 hmem)
  obtain ⟨content, hcontent, -⟩ := Reader.mem_edges_find.1 he
  obtain rfl := (hreflects.tidy (by simp [hcontent])).eq htidy hsame
  rw [Batch.mem_processed_taken, not_or] at hprocessed
  have hne : f' ≠ c.path := fun hne => hprocessed.1 (hne ▸ rfl)
  have hsettled : cur f' = files f' := h.settled fun hw => hqueued (h.queued hw.1)
  rw [Function.update_of_ne hne, hsettled] at hcontent
  simp [Change.isDeletion, Change.modified, hcontent]

include hqueue hl hnew hq hseed in
/-- The invariant after the first file of the queue was handled. -/
theorem refresh :
    Underway read owner files (Function.update cur c.path (files c.path)) q
      (b.advance c.path cascaded s q.references seed) where
  reflects := h.reflects_advance hqueue hl hq
  complete he := h.complete_advance hqueue s hl hnew hq hseed he
  settled hf := h.settled_advance hqueue s hf
  tidy hf := hq.root ▸ h.tidy hf
  tells {d cascaded'} hd := by
    rw [Batch.queue_advance h.cascade, List.mem_append] at hd
    rw [hq.root]
    rcases hd with hd | hd
    · refine h.tells (hqueue ▸ List.mem_cons_of_mem _ ?_ : (d, cascaded') ∈ b.queue)
      simpa [Batch.taken, hqueue] using hd
    · obtain ⟨f, hf, hfd⟩ := List.mem_map.1 hd
      obtain ⟨rfl, rfl⟩ := Prod.mk.inj hfd
      exact h.tells_dependent hqueue s hl hq hf
  queued {k} hk := by
    rw [Batch.mem_queued_advance h.cascade]
    rcases (Batch.mem_keys_advance h.cascade _ _ _ _ _).1 hk with hk | hk
    · exact .inl (h.queued ((Batch.mem_keys_taken hqueue s).2 (.inr hk)))
    · exact .inr hk
  seen {k} hk := by
    rw [Batch.mem_keys_advance h.cascade, Batch.mem_processed_advance]
    rw [Batch.mem_queued_advance h.cascade] at hk
    rcases hk with hk | hk
    · rcases h.seen hk with hk | hk
      · exact .inl (.inr hk)
      · rcases (Batch.mem_keys_taken hqueue s).1 hk with hk | hk
        · exact .inl (.inl hk)
        · exact .inr (.inl hk)
    · exact .inr (.inr hk)
  cascade := (Batch.cascade_advance _ _ _ _ _).trans h.cascade
  cancelled := hq.cancelled.trans h.cancelled

include hqueue hl hq in
theorem remaining_refresh :
    (b.advance c.path cascaded s q.references seed).remaining q.references <
      b.remaining p.references := by
  have hr := (h.reflects_advance hqueue hl hq).referring
  have hhead : c.path.parts ∈ b.queued := h.queued ((Batch.mem_keys_taken hqueue s).2 (.inl rfl))
  have hmono : (b.taken c.path s).remaining q.references ≤
      (b.taken c.path s).remaining p.references := by
    refine Batch.remaining_mono fun k hk hnot => ?_
    obtain ⟨t, ht⟩ := (Index.mem_iff_exists_mem_bucket hr.proper).1 hk
    rcases hq.mem_targets.1 ht with ⟨rfl, -⟩ | ⟨-, ht⟩
    · exact absurd hhead hnot
    · exact (Index.mem_iff_exists_mem_bucket h.reflects.referring.proper).2 ⟨t, ht⟩
  have hpulled : (b.advance c.path cascaded s q.references seed).remaining q.references ≤
      (b.taken c.path s).remaining q.references := Batch.remaining_succeed hr _ _ _ _
  have hlength : b.queue.length = (b.taken c.path s).queue.length + 1 := by
    simp [Batch.taken, hqueue]
  have hunseen : (b.taken c.path s).unseen p.references = b.unseen p.references := rfl
  unfold Batch.remaining at hmono hpulled ⊢
  rw [hunseen] at hmono
  omega

end Refresh

/-- **Every turn keeps the invariant, and there are turns until the queue is empty.** -/
theorem progress (hl : read.Local owner) {w : World} (hw : w.Obliging) (hreads : w.Reads read files)
    (h : Underway read owner files cur p b) :
    b.queue = [] ∨ ∃ p' b' cur', b.turn w p = some (p', b') ∧
      Underway read owner files cur' p' b' ∧
      b'.remaining p'.references < b.remaining p.references := by
  rcases hqueue : b.queue with _ | ⟨⟨c, cascaded⟩, rest⟩
  · exact .inl rfl
  · right
    by_cases hold : c.path.parts ∈ b.processed
    · refine ⟨p, { b with queue := rest }, cur, Batch.turn_skips hqueue h.cancelled hold,
        h.skip hqueue hold, ?_⟩
      change rest.length + (b.unseen p.references).length < b.remaining p.references
      rw [Batch.remaining, hqueue, List.length_cons]
      omega
    · have htells := h.tells (hqueue ▸ List.mem_cons_self : (c, cascaded) ∈ b.queue)
      have houtput : if c.isDeletion then read.find c.path (files c.path) = {} else
          ∀ n r, r.path = c.path →
            w.analyze n r = { outcome := .ok (read.find c.path (files c.path)) } := by
        cases hcontent : files c.path with
        | none =>
          rw [if_pos (htells.isDeletion.2 hcontent)]
          rfl
        | some content =>
          rw [if_neg (by rw [htells.isDeletion, hcontent]; simp)]
          intro n r hr
          rw [hreads n r content (hr ▸ hcontent), hr]
          rfl
      obtain ⟨q, s, seed, hq, hseed, hturn⟩ := Batch.turn_refreshes hqueue h.cancelled hold
        htells.source? hw h.reflects.coherent (h.reflects.fits hl c.path _) houtput
      exact ⟨q, _, _, hturn, h.refresh hqueue s hl hold hq hseed,
        h.remaining_refresh hqueue s hl hq⟩

end Underway

/-! ## Whole batches -/

/-- The live graph is what was found in some files, except for edges whose target is missing. -/
structure Mirrors {γ : Type} (read : Reader γ) (files : Contents γ) (p : Project) : Prop where
  reflects : Reflects read files p
  complete : ∀ {f e}, e ∈ (read.find f (files f)).edges →
    p.store.edge? e.id = some (Project.ownEdge f e) ∨ p.store.hasNode e.target = false

section Whole

variable {γ : Type} {read : Reader γ} {owner : NodeId → Path} {files files' cur : Contents γ}
  {p : Project} {b : Batch} {w : World}

theorem Mirrors.keeps (h : Mirrors read files p) {q : Project} (hk : p.Keeps q) :
    Mirrors read files q :=
  ⟨h.reflects.congr hk.store hk.references hk.root, hk.store ▸ h.complete⟩

/-- A batch that has handled everything leaves a graph that mirrors the files. -/
theorem Underway.mirrors_run (hl : read.Local owner) (hw : w.Obliging) (hreads : w.Reads read files)
    (h : Underway read owner files cur p b) :
    Mirrors read files (b.run w (fun _ => false) p).1 := by
  have hturn : ∀ {p b p' b'}, (∃ cur, Underway read owner files cur p b) →
      b.turn w p = some (p', b') → (∃ cur, Underway read owner files cur p' b') ∧
        b'.remaining p'.references < b.remaining p.references := by
    rintro p b p' b' ⟨cur, h⟩ ht
    rcases h.progress hl hw hreads with hnil | ⟨p'', b'', cur', ht', h', hlt⟩
    · simp [Batch.turn, Batch.next, hnil] at ht
    · obtain ⟨rfl, rfl⟩ := Prod.mk.inj (Option.some.inj (ht'.symm.trans ht))
      exact ⟨⟨cur', h'⟩, hlt⟩
  obtain ⟨p', b', ⟨cur', h'⟩, hend, hrun⟩ := Batch.runWithin_ends
    (m := fun p b => b.remaining p.references) hturn ⟨cur, h⟩ (b.remaining_lt_bound p)
  have hnil : b'.queue = [] := by
    rcases h'.progress hl hw hreads with hnil | ⟨_, _, _, ht, -⟩
    · exact hnil
    · rw [hend] at ht
      cases ht
  have hidle : ∀ k, ¬ b'.Waits k := by
    rintro k ⟨hk, -⟩
    simp [Batch.keys, hnil] at hk
  have hcur : cur' = files := by
    funext f
    exact h'.settled (hidle _)
  subst hcur
  have hresult : (b.run w (fun _ => false) p).1 = p' := by
    rw [Batch.run, hrun, Batch.next, hnil]
  rw [hresult]
  refine ⟨h'.reflects, fun he => ?_⟩
  rcases h'.complete he with hs | hwaits | ⟨hgone, -⟩
  · exact .inl hs
  · exact absurd hwaits (hidle _)
  · exact .inr hgone

theorem Change.Tells.normalize {root : ProjectRoot} {c : Change} (h : c.Tells root files) :
    Project.normalizeChange root c = c := by
  obtain ⟨path, kind⟩ := c
  have htidy : root.relative path = path := h.tidy
  cases kind with
  | renamed source => exact absurd h.source? (by simp [Change.source?])
  | created | modified | deleted => simp [Project.normalizeChange, htidy]

/-- The invariant when a batch begins: every file that changed waits. -/
theorem Mirrors.underway (h : Mirrors read files p) {changes : List Change}
    (htidy : ∀ f, files' f ≠ none → p.root.Tidy f)
    (htells : ∀ c ∈ changes, c.Tells p.root files')
    (hnamed : ∀ f, files f ≠ files' f → ∃ c ∈ changes, c.path = f) :
    Underway read owner files' files (p.begin changes true).1 (p.begin changes true).2 := by
  have hnormalize : changes.map (Project.normalizeChange p.root) = changes :=
    (List.map_congr_left fun c hc => (htells c hc).normalize).trans (List.map_id' changes)
  have hplain : ∀ c ∈ changes, c.source? = none := fun c hc => (htells c hc).source?
  have hqueue : (p.begin changes true).2.queue = (settle changes).map fun c => (c, false) := by
    simp [Project.begin, hnormalize]
  have hkeys : (p.begin changes true).2.keys = (settle changes).map fun c => c.path.parts := by
    rw [Batch.keys, hqueue, List.map_map]
    rfl
  have hqueued : ∀ {k}, k ∈ (p.begin changes true).2.queued ↔
      k ∈ (p.begin changes true).2.keys := by
    intro k
    rw [hkeys]
    simp only [Project.begin, hnormalize]
    rw [Batch.mem_foldl_insert fun c : Change => c.path.parts]
    simp
  have hprocessed : ∀ {k}, k ∉ (p.begin changes true).2.processed := by
    simp [Project.begin]
  refine ⟨h.reflects.congr rfl rfl rfl, fun he => ?_, fun {f} hf => ?_, fun hf => htidy _ hf,
    fun {c cascaded} hc => ?_, fun hk => hqueued.2 hk, fun hk => .inr (hqueued.1 hk), rfl, rfl⟩
  · rcases h.complete he with hs | hgone
    · exact .inl hs
    · exact .inr (.inr ⟨hgone, .inl hprocessed⟩)
  · by_contra hne
    obtain ⟨c, hc, rfl⟩ := hnamed f hne
    obtain ⟨d, hd, hparts⟩ := exists_settle_of_plain hplain hc
    refine hf ⟨?_, hprocessed⟩
    rw [hkeys, ← hparts]
    exact List.mem_map_of_mem hd
  · rw [hqueue, List.mem_map] at hc
    obtain ⟨d, hd, hdc⟩ := hc
    obtain ⟨rfl, -⟩ := Prod.mk.inj hdc
    have hmem := List.mem_of_find?_eq_some ((mem_settle_of_plain hplain).1 hd)
    exact htells d (List.mem_reverse.1 hmem)

end Whole

/-! ## The main statement -/

/-- A project that began without a graph and was told, batch by batch, of all changes of its files,
while nobody failed or asked to stop; `files` are those of the last batch. -/
inductive Maintained {γ : Type} (read : Reader γ) : Contents γ → Project → Prop
  | start {p} (h : p.Fresh) : Maintained read (fun _ => none) p
  | batch {files files' p w changes} (h : Maintained read files p) (hw : w.Obliging)
    (hreads : w.Reads read files') (htidy : ∀ f, files' f ≠ none → p.root.Tidy f)
    (htells : ∀ c ∈ changes, c.Tells p.root files')
    (hnamed : ∀ f, files f ≠ files' f → ∃ c ∈ changes, c.path = f) :
    Maintained read files' (p.processChanges w changes true).1

namespace Maintained

variable {γ : Type} {read : Reader γ} {owner : NodeId → Path} {files : Contents γ} {p q : Project}

theorem mirrors (hl : read.Local owner) (h : Maintained read files p) : Mirrors read files p := by
  induction h with
  | start h => exact ⟨Reflects.empty h, fun he => by simp [Reader.find] at he⟩
  | @batch files files' p w changes _ hw hreads htidy htells hnamed ih =>
    have hunderway : Underway read owner files' files _ _ := ih.underway htidy htells hnamed
    exact (hunderway.mirrors_run hl hw hreads).keeps (Project.keeps_finish w _ _)

end Maintained

namespace Mirrors

variable {γ : Type} {read : Reader γ} {owner : NodeId → Path} {files : Contents γ} {p q : Project}

theorem mem_allNodes (h : Mirrors read files p) {n : Node} :
    n ∈ p.store.allNodes ↔ ∃ f c, files f = some c ∧ n ∈ (read f c).nodes := by
  rw [Store.mem_allNodes h.reflects.coherent, h.reflects.node?]
  simp only [true_and, Reader.mem_nodes_find]

theorem mem_liveEdges (h : Mirrors read files p) {e : Edge} :
    e ∈ p.store.liveEdges ↔
      (∃ f c, files f = some c ∧ e ∈ (read f c).edges.map (Project.ownEdge f)) ∧
        p.store.hasNode e.source = true ∧ p.store.hasNode e.target = true := by
  rw [Store.mem_liveEdges h.reflects.coherent]
  refine and_congr_left fun hends => ?_
  constructor
  · intro he
    obtain ⟨f, he⟩ := h.reflects.edge? he
    obtain ⟨e', he', rfl⟩ := List.mem_map.1 he
    obtain ⟨c, hc, he'⟩ := Reader.mem_edges_find.1 he'
    exact ⟨f, c, hc, List.mem_map_of_mem he'⟩
  · rintro ⟨f, c, hc, he⟩
    obtain ⟨e', he', rfl⟩ := List.mem_map.1 he
    rw [Project.ownEdge_target] at hends
    rcases h.complete (Reader.mem_edges_find.2 ⟨c, hc, he'⟩) with hs | hgone
    · rwa [Project.ownEdge_id]
    · rw [hends.2] at hgone
      cases hgone

theorem agree (h : Mirrors read files p) (h' : Mirrors read files q) :
    q.store.allNodes = p.store.allNodes ∧ q.store.liveEdges = p.store.liveEdges := by
  have hnodes : q.store.nodes = p.store.nodes := by
    apply ExtTreeMap.ext_getElem?
    intro i
    ext n
    exact h'.reflects.node?.trans h.reflects.node?.symm
  have hnode : ∀ i, q.store.hasNode i = p.store.hasNode i := by
    intro i
    rw [Store.hasNode, hnodes, Store.hasNode]
  refine ⟨by rw [Store.allNodes, hnodes, Store.allNodes], ?_⟩
  refine Store.eq_of_ascending (Store.ascending_liveEdges h'.reflects.coherent)
    (Store.ascending_liveEdges h.reflects.coherent) fun e => ?_
  rw [h.mem_liveEdges, h'.mem_liveEdges, hnode, hnode]

end Mirrors

/-- **Incremental maintenance equals an index from scratch.** After every batch the declarations in
the graph are those found in the files that there are, the edges with both ends are those found that
have both ends, and any other project that was told of the same files, for instance in a single
batch, holds the same. -/
theorem Maintained.equals_scratch {γ : Type} {read : Reader γ} {owner : NodeId → Path}
    (hl : read.Local owner) {files : Contents γ} {p : Project} (h : Maintained read files p) :
    (∀ n, n ∈ p.store.allNodes ↔ ∃ f c, files f = some c ∧ n ∈ (read f c).nodes) ∧
    (∀ e, e ∈ p.store.liveEdges ↔
      (∃ f c, files f = some c ∧ e ∈ (read f c).edges.map (Project.ownEdge f)) ∧
        p.store.hasNode e.source = true ∧ p.store.hasNode e.target = true) ∧
    ∀ q, Maintained read files q →
      q.store.allNodes = p.store.allNodes ∧ q.store.liveEdges = p.store.liveEdges := by
  have hmirrors := h.mirrors hl
  exact ⟨fun n => hmirrors.mem_allNodes, fun e => hmirrors.mem_liveEdges,
    fun q hq => hmirrors.agree (hq.mirrors hl)⟩

/-! ## Two files that call each other -/

/-- A reader for files that hold nothing but the path of a file to call. -/
def Reader.calls : Reader Path := fun p callee =>
  { nodes := [.ofFile p], edges := [.ofCall p callee] }

theorem Reader.local_calls : Reader.calls.Local fun id => ⟨id⟩ where
  node_owner hn := by
    obtain rfl := List.mem_singleton.1 hn
    rfl
  node_file hn := by
    obtain rfl := List.mem_singleton.1 hn
    rfl
  edge_file he f hf := by
    obtain rfl := List.mem_singleton.1 he
    cases hf
  edge_source he := by
    obtain rfl := List.mem_singleton.1 he
    exact List.mem_singleton.2 rfl
  contains_target he hk := by
    obtain rfl := List.mem_singleton.1 he
    cases hk
  nodes_nodup p c := List.nodup_singleton _
  edges_nodup p c := List.nodup_singleton _
  edge_owner he he' hid := by
    obtain rfl := List.mem_singleton.1 he
    obtain rfl := List.mem_singleton.1 he'
    exact congrArg (fun text => Path.parts ⟨text⟩) hid

/-- Collaborators that do what a reader says and never fail on files that there are. -/
def Reader.world {γ : Type} (read : Reader γ) (files : Contents γ) : World where
  analyze _ r := { outcome := (files r.path).elim (.error .system) fun c => .ok (read r.path c) }
  refusal? _ _ := none

theorem Reader.reads_world {γ : Type} (read : Reader γ) (files : Contents γ) :
    (read.world files).Reads read files := by
  intro n r c hc
  simp [Reader.world, hc]

/-- Only `a.cs`, which calls `b.cs`. -/
def lone : Contents Path := fun f => if f = ⟨"a.cs"⟩ then some ⟨"b.cs"⟩ else none

/-- Two files that call each other. -/
def pair : Contents Path := fun f => if f = ⟨"b.cs"⟩ then some ⟨"a.cs"⟩ else lone f

/-- The project after both files were created. -/
def Project.paired : Project :=
  (Project.unread.processChanges (Reader.calls.world pair)
    [.created ⟨"b.cs"⟩, .created ⟨"a.cs"⟩] true).1

/-- The project after one of the two was deleted. -/
def Project.bereft : Project :=
  (Project.paired.processChanges (Reader.calls.world lone) [.deleted ⟨"b.cs"⟩] true).1

/-- The project after the deleted file came back. -/
def Project.returned : Project :=
  (Project.bereft.processChanges (Reader.calls.world pair) [.created ⟨"b.cs"⟩] true).1

theorem eq_of_pair {f : Path} (h : pair f ≠ none) : f = ⟨"b.cs"⟩ ∨ f = ⟨"a.cs"⟩ := by
  unfold pair lone at h
  grind

theorem eq_of_lone {f : Path} (h : lone f ≠ none) : f = ⟨"a.cs"⟩ := by
  unfold lone at h
  grind

theorem maintained_returned : Maintained Reader.calls pair Project.returned := by
  have hpaired : Maintained Reader.calls pair Project.paired := by
    refine .batch (.start Project.fresh_unread) (fun _ _ => rfl) (Reader.reads_world _ _) ?_ ?_ ?_
    · intro f hf
      rcases eq_of_pair hf with rfl | rfl <;> decide +kernel
    · intro c hc
      simp only [List.mem_cons, List.not_mem_nil, or_false] at hc
      rcases hc with rfl | rfl <;> exact ⟨rfl, by decide +kernel, by decide⟩
    · intro f hf
      rcases eq_of_pair hf.symm with rfl | rfl
      · exact ⟨.created ⟨"b.cs"⟩, by decide, rfl⟩
      · exact ⟨.created ⟨"a.cs"⟩, by decide, rfl⟩
  have hbereft : Maintained Reader.calls lone Project.bereft := by
    refine .batch hpaired (fun _ _ => rfl) (Reader.reads_world _ _) ?_ ?_ ?_
    · intro f hf
      obtain rfl := eq_of_lone hf
      decide +kernel
    · intro c hc
      obtain rfl := List.mem_singleton.1 hc
      exact ⟨rfl, by decide +kernel, by decide⟩
    · intro f hf
      refine ⟨.deleted ⟨"b.cs"⟩, by decide, ?_⟩
      by_contra hne
      exact hf (if_neg (Ne.symm hne))
  refine .batch hbereft (fun _ _ => rfl) (Reader.reads_world _ _) ?_ ?_ ?_
  · intro f hf
    rcases eq_of_pair hf with rfl | rfl <;> decide +kernel
  · intro c hc
    obtain rfl := List.mem_singleton.1 hc
    exact ⟨rfl, by decide +kernel, by decide⟩
  · intro f hf
    refine ⟨.created ⟨"b.cs"⟩, by decide, ?_⟩
    by_contra hne
    exact hf (if_neg (Ne.symm hne)).symm

/-- The edge that was lost with the deleted file is there again. -/
theorem Maintained.equals_scratch_returned :
    Maintained Reader.calls pair Project.returned ∧
    Project.returned.store.liveEdges.map Edge.id = ["a.cs", "b.cs"] ∧
    ∀ e, e ∈ Project.returned.store.liveEdges ↔
      (∃ f c, pair f = some c ∧ e ∈ (Reader.calls f c).edges.map (Project.ownEdge f)) ∧
        Project.returned.store.hasNode e.source = true ∧
        Project.returned.store.hasNode e.target = true :=
  ⟨maintained_returned, by decide +kernel,
    (Maintained.equals_scratch Reader.local_calls maintained_returned).2.1⟩

end CodeGraph

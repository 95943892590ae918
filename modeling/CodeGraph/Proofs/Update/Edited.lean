import CodeGraph.Proofs.Update.Edit

/-!
# A batch that takes an edit in

A batch that names every file that was edited, and in which nobody fails, visits these files and
those that it pulls in. What it leaves is told by the order of the visits.

* `Project.handle_of_obliging`: a visit in which nobody fails.
* `Drawn`: the graph is what was found in some files, up to edges that are missing.
* `Edit.Course`: the invariant of the batch; `Edit.Course.visit`: every visit keeps it.
* `Edit.Finished`, **`Edit.finished_processChanges`**: the end of the batch.
* `drawn_indexFiles`: a graph after some files were indexed.
-/

namespace CodeGraph

open Std

/-! ## A visit in which nobody fails -/

theorem Project.handle_of_obliging {w : World} (hw : w.Obliging) {p : Project} {s : Summary}
    {c : Change} (hsource : c.source? = none) {output : Output}
    (houtput : if c.isDeletion then output = {} else
      ∀ n r, r.path = c.path → w.analyze n r = { outcome := .ok output }) :
    ∃ q s' found, p.handle w s c = (q, s', .ok found) ∧ found.output = output ∧
      q.root = p.root ∧ q.cancelled = p.cancelled := by
  obtain ⟨q, s', hkeeps, hr⟩ := removeFile_of_obliging hw p s c.path
  have hplaces : c.places = [c.path] := by rw [Change.places, hsource]; rfl
  unfold handle
  simp only [hplaces, Batch.removeStale, hr]
  by_cases hdel : c.isDeletion = true
  · rw [if_pos hdel] at houtput ⊢
    exact ⟨q, s', _, rfl, houtput.symm, hkeeps.root, hkeeps.cancelled⟩
  · rw [if_neg hdel] at houtput ⊢
    generalize hf : InFlight.mk c false _ _ = f
    have hreply : (Batch.ask w q f).2.2 = { outcome := .ok output } :=
      houtput _ _ (by rw [← hf]; rfl)
    obtain ⟨q', s'', hkeeps', hi⟩ :=
      integrate_of_obliging hw (Batch.ask w q f).1 s' f.change.path output f.orphaned
    refine ⟨q', s'', { removed := f.seed, output }, ?_, rfl, ?_, ?_⟩
    · rw [hreply, respond]
      simp [hi]
    · exact hkeeps'.root.trans hkeeps.root
    · exact hkeeps'.cancelled.trans hkeeps.cancelled

theorem Change.Tells.output {γ : Type} {root : ProjectRoot} {files : Contents γ} {c : Change}
    (h : c.Tells root files) {w : World} {read : Reader γ} (hreads : w.Reads read files) :
    if c.isDeletion then read.find c.path (files c.path) = {} else
      ∀ n r, r.path = c.path →
        w.analyze n r = { outcome := .ok (read.find c.path (files c.path)) } := by
  cases hcontent : files c.path with
  | none =>
    rw [if_pos (h.isDeletion.2 hcontent)]
    rfl
  | some content =>
    rw [if_neg (by rw [h.isDeletion, hcontent]; simp)]
    intro n r hr
    rw [hreads n r content (hr ▸ hcontent), hr]
    rfl

/-! ## Graphs of files -/

/-- The declarations in the live graph are those found in some files, and the references are those
of all edges found. The edges are found in the files too, but some may be missing. -/
structure Drawn {γ : Type} (read : Reader γ) (files : Contents γ) (p : Project) : Prop where
  consistent : p.Consistent
  node? : ∀ {i n}, p.store.node? i = some n ↔ ∃ f, read.node? files f i = some n
  edge? : ∀ {i e}, p.store.edge? i = some e → ∃ f, read.edge? files f i = some e
  refers : ∀ {t k}, t ∈ Index.bucket p.references.targets k ↔
    ∃ f, f.parts = k ∧ read.Refers files f t
  tidy : ∀ {f}, files f ≠ none → p.root.Tidy f
  tidy_referring : ∀ {t f} {k : List Part}, (p.references.filesOf t)[k]? = some f → p.root.Tidy f

theorem Drawn.empty {γ : Type} (read : Reader γ) {p : Project} (h : p.Fresh) :
    Drawn read (fun _ => none) p := by
  obtain ⟨hstore, hreferences, -⟩ := h
  refine ⟨⟨hstore ▸ Store.coherent_empty, hreferences ▸ References.mutual_empty⟩, ?_, ?_, ?_, ?_, ?_⟩
  · intro i n
    simp [hstore, Store.empty, Store.node?, Reader.node?, Reader.find]
  · intro i e he
    simp [hstore, Store.empty, Store.edge?] at he
  · intro t k
    rw [hreferences]
    simp [References.empty, Index.not_mem_bucket_empty, Reader.Refers, Reader.find]
  · simp
  · intro t f k hf
    rw [hreferences] at hf
    simp [References.empty, References.filesOf] at hf

namespace Edit

variable {γ : Type} {d : Edit γ}

theorem Halfway.congr {start : Store} {past : List Path} {p q : Project}
    (h : d.Halfway start past p) (hstore : q.store = p.store)
    (hreferences : q.references = p.references) (hroot : q.root = p.root) :
    d.Halfway start past q where
  node? := hstore ▸ h.node?
  origin := hstore ▸ h.origin
  kept := hstore ▸ h.kept
  done := hstore ▸ h.done
  refers := hreferences ▸ h.refers
  tidy := hroot ▸ h.tidy
  tidy_referring := by
    rw [hreferences, hroot]
    exact h.tidy_referring

theorem halfway_nil {p : Project} (h : Drawn d.read d.old p)
    (htidy : ∀ f, d.new f ≠ none → p.root.Tidy f) : d.Halfway p.store [] p where
  node? i n := by simp [h.node?]
  origin {i e} he := by
    obtain ⟨f, hf⟩ := h.edge? he
    exact .inr ⟨f, by simp, hf, he, not_sometime_nil _⟩
  kept _ _ hstart _ _ := hstart
  done hf := by simp at hf
  refers := by simp [h.refers]
  tidy hf := hf.elim h.tidy (htidy _)
  tidy_referring := h.tidy_referring

/-! ## The invariant of the batch -/

/-- A file declares something, before or after. -/
def Touches (d : Edit γ) (f : Path) (t : NodeId) : Prop :=
  d.read.Declares d.old f t ∨ d.read.Declares d.new f t

/-- The middle of a batch that takes an edit in: `order` are the changes that it was told. -/
structure Course (d : Edit γ) (start : Store) (order : List Change) (visits : List Visit)
    (p : Project) (b : Batch) : Prop where
  halfway : d.Halfway start (visits.map (·.change.path)) p
  tells : ∀ {c cascaded}, (c, cascaded) ∈ b.queue → c.Tells p.root d.new
  settled : ∀ {f : Path}, f.parts ∉ b.queued → d.old f = d.new f
  cancelled : p.cancelled = false
  course : ∃ pulled : List Change, visits.map (fun v => (v.change, v.cascaded)) ++ b.queue =
    order.map (·, false) ++ pulled.map (·, true)
  tidy : ∀ {v}, v ∈ visits → p.root.Tidy v.change.path
  seeds : ∀ {v}, v ∈ visits → ∃ found, v.result = .ok found ∧
    ∀ t ∈ found.seed, d.Touches v.change.path t
  touched : ∀ {f t}, f ∈ visits.map (·.change.path) → d.Touches f t →
    ∃ v ∈ visits, ∃ found, v.result = .ok found ∧ t ∈ found.seed
  referred : ∀ {v t k}, v ∈ visits → k ∈ v.after.project.references.filesOf t →
    ∃ f, f.parts = k ∧ (d.read.Refers d.old f t ∨ d.read.Refers d.new f t)

namespace Course

variable {w : World} {start : Store} {order : List Change} {visits : List Visit} {p : Project}
  {b : Batch} {c : Change} {cascaded : Bool} {rest : List (Change × Bool)}

/-- What a visit in which nobody fails comes to. -/
structure Step (d : Edit γ) (w : World) (p : Project) (b : Batch) (c : Change) (cascaded : Bool)
    (q : Project) (found : Handling) : Prop where
  project : (b.visit w p c cascaded).after.project = q
  batch : ∃ s, (b.visit w p c cascaded).after.batch = (b.close c cascaded (q, s, .ok found)).2
  result : (b.visit w p c cascaded).result = .ok found
  replaced : p.Replaced c.path (d.read.find c.path (d.new c.path)) q
  output : found.output = d.read.find c.path (d.new c.path)
  root : q.root = p.root
  cancelled : q.cancelled = p.cancelled

section Visit

variable (ha : d.Apart) (hw : w.Obliging) (hreads : w.Reads d.read d.new)
  (ht : Tracked visits p b) (h : d.Course start order visits p b)
  (hqueue : b.queue = (c, cascaded) :: rest)
include hqueue

include h in
theorem tells_head : c.Tells p.root d.new :=
  h.tells (hqueue ▸ List.mem_cons_self : (c, cascaded) ∈ b.queue)

include ht in
theorem head_not_visited : c.path ∉ visits.map (·.change.path) := by
  intro hmem
  obtain ⟨v, hv, hpath⟩ := List.mem_map.1 hmem
  exact ht.head_new hqueue (ht.processed.2 ⟨v, hv, congrArg Path.parts hpath⟩)

include ht h

include hw hreads in
theorem exists_step : ∃ q found, Step d w p b c cascaded q found := by
  have htells := h.tells_head hqueue
  obtain ⟨q, s, found, hh, houtput, hroot, hcancelled⟩ :=
    Project.handle_of_obliging hw (p := p) (s := b.summary) htells.source? (htells.output hreads)
  have hreplaced := Project.replaced_handle ht.consistent.coherent hh htells.source?
  refine ⟨q, found, ?_, ⟨s, ?_⟩, ?_, houtput ▸ hreplaced, houtput, hroot, hcancelled⟩
  · simp only [Batch.visit, hh]
    rfl
  · simp only [Batch.visit, hh]
  · simp only [Batch.visit, hh]

include ha

theorem mem_seed {q : Project} {found : Handling} (hs : Step d w p b c cascaded q found)
    {t : NodeId} : t ∈ found.seed ↔
      d.Attached (visits.map (·.change.path)) c.path t ∨ d.read.Declares d.new c.path t := by
  have htells := h.tells_head hqueue
  have hplaces : c.places = [c.path] := by rw [Change.places, htells.source?]; rfl
  rw [ht.seeds_visit hs.result, hs.output,
    ← h.halfway.attached_iff ha htells.tidy (head_not_visited ht hqueue)]
  refine or_congr_left ?_
  change (∃ n, p.store.node? t = some n ∧ ∃ f ∈ c.places, n.file.parts = f.parts) ↔ _
  simp [hplaces]

variable {q : Project} {found : Handling} (hs : Step d w p b c cascaded q found)
include hs

theorem halfway_visit :
    d.Halfway start ((visits ++ [b.visit w p c cascaded]).map (·.change.path)) q := by
  rw [List.map_append]
  exact h.halfway.visit ha (h.tells_head hqueue).tidy (head_not_visited ht hqueue) hs.replaced
    ht.consistent.referring hs.root

theorem tells_pulled {s : Summary} {f : Path} (hf : f ∈ b.pulled c (q, s, .ok found)) :
    (Change.modified f).Tells q.root d.new := by
  have hhalfway := h.halfway_visit ha ht hqueue hs
  have hmutual : q.references.Mutual := hs.project ▸ (ht.visit hqueue).consistent.referring
  obtain ⟨⟨_, -, t, -, hk⟩, hne, hprocessed, hqueued⟩ := b.mem_pulled c (q, s, .ok found) hmutual hf
  have htidy := hhalfway.tidy_referring hk
  have hmem : f.parts ∈ q.references.filesOf t :=
    ExtTreeMap.mem_iff_isSome_getElem?.2 (Option.isSome_of_eq_some hk)
  obtain ⟨f', hparts, hrefers⟩ := hhalfway.refers.1 (hmutual.mem_filesOf.1 hmem)
  have hcontent : d.old f' ≠ none ∨ d.new f' ≠ none :=
    hrefers.symm.imp (fun hr => hr.2.ne_none) fun hr => hr.2.ne_none
  obtain rfl := (hhalfway.tidy hcontent).eq htidy hparts
  have hsame := h.settled hqueued
  rw [hsame, or_self] at hcontent
  exact ⟨rfl, htidy, by simpa [Change.isDeletion, Change.modified] using hcontent⟩

/-- What a visited file declares, before or after, was taken out or put in by some visit. -/
theorem touched_visit {f : Path} {t : NodeId}
    (hf : f ∈ (visits ++ [b.visit w p c cascaded]).map (·.change.path)) (htouches : d.Touches f t) :
    ∃ v ∈ visits ++ [b.visit w p c cascaded], ∃ found, v.result = .ok found ∧ t ∈ found.seed := by
  have hearlier : ∀ {g}, g ∈ visits.map (·.change.path) → d.Touches g t →
      ∃ v ∈ visits ++ [b.visit w p c cascaded], ∃ found, v.result = .ok found ∧
        t ∈ found.seed := by
    intro g hg htouches
    obtain ⟨v, hv, hfound⟩ := h.touched hg htouches
    exact ⟨v, List.mem_append_left _ hv, hfound⟩
  rw [List.map_append, List.mem_append] at hf
  rcases hf with hf | hf
  · exact hearlier hf htouches
  · obtain rfl : f = c.path := List.mem_singleton.1 hf
    by_cases hnew : ∃ g ∈ visits.map (·.change.path), d.read.Declares d.new g t
    · -- The declaration had come with an earlier visit.
      obtain ⟨g, hg, hd⟩ := hnew
      exact hearlier hg (.inr hd)
    · refine ⟨_, List.mem_append_right _ List.mem_cons_self, found, hs.result, ?_⟩
      rw [h.mem_seed ha ht hqueue hs]
      exact htouches.imp_left fun hd => ⟨hd, fun g hg hd' => hnew ⟨g, hg, hd'⟩⟩

/-- **A visit keeps the invariant.** -/
theorem visit : d.Course start order (visits ++ [b.visit w p c cascaded])
    (b.visit w p c cascaded).after.project (b.visit w p c cascaded).after.batch := by
  have hhalfway := h.halfway_visit ha ht hqueue hs
  have htells := h.tells_head hqueue
  have hmutual : q.references.Mutual := hs.project ▸ (ht.visit hqueue).consistent.referring
  obtain ⟨s, hbatch⟩ := hs.batch
  have hqueue' : (b.visit w p c cascaded).after.batch.queue =
      rest ++ (b.pulled c (q, s, .ok found)).map fun f => (.modified f, true) := by
    rw [hbatch, Batch.queue_close, hqueue]
    rfl
  rw [hs.project]
  refine ⟨hhalfway, ?_, ?_, hs.cancelled.trans h.cancelled, ?_, ?_, ?_, ?_, ?_⟩
  · intro c' cascaded' hc'
    rw [hqueue', List.mem_append, List.mem_map] at hc'
    rcases hc' with hc' | ⟨f, hf, hfc⟩
    · exact hs.root ▸ h.tells (hqueue ▸ List.mem_cons_of_mem _ hc')
    · obtain ⟨rfl, rfl⟩ := Prod.mk.inj hfc
      exact h.tells_pulled ha ht hqueue hs hf
  · intro f hf
    rw [hbatch, Batch.mem_queued_close, not_or] at hf
    exact h.settled hf.1
  · obtain ⟨pulled, hcourse⟩ := h.course
    refine ⟨pulled ++ (b.pulled c (q, s, .ok found)).map .modified, ?_⟩
    rw [hqueue] at hcourse
    rw [hqueue', List.map_append, List.map_append, List.map_map,
      ← List.append_assoc (order.map _), ← hcourse]
    simp only [List.append_assoc, List.cons_append]
    rfl
  · intro v hv
    rw [hs.root]
    rcases List.mem_append.1 hv with hv | hv
    · exact h.tidy hv
    · obtain rfl := List.mem_singleton.1 hv
      exact htells.tidy
  · intro v hv
    rcases List.mem_append.1 hv with hv | hv
    · exact h.seeds hv
    · obtain rfl := List.mem_singleton.1 hv
      refine ⟨found, hs.result, fun t hseed => ?_⟩
      exact ((h.mem_seed ha ht hqueue hs).1 hseed).imp_left And.left
  · exact fun {f t} => h.touched_visit ha ht hqueue hs
  · intro v t k hv hk
    rcases List.mem_append.1 hv with hv | hv
    · exact h.referred hv hk
    · obtain rfl := List.mem_singleton.1 hv
      rw [hs.project] at hk
      obtain ⟨f, hparts, hrefers⟩ := hhalfway.refers.1 (hmutual.mem_filesOf.1 hk)
      exact ⟨f, hparts, hrefers.symm.imp And.right And.right⟩

end Visit

end Course

section Whole

variable {w : World} {p : Project} {changes : List Change}

theorem course_begin (hp : Drawn d.read d.old p) (htidy : ∀ f, d.new f ≠ none → p.root.Tidy f)
    (htells : ∀ c ∈ changes, c.Tells p.root d.new)
    (hnamed : ∀ f, d.old f ≠ d.new f → ∃ c ∈ changes, c.path = f) (cascade : Bool) :
    d.Course p.store (settle changes) [] (p.begin changes cascade).1
      (p.begin changes cascade).2 := by
  have hnormalize : changes.map (Project.normalizeChange p.root) = changes :=
    (List.map_congr_left fun c hc => (htells c hc).normalize).trans (List.map_id' changes)
  have hplain : ∀ c ∈ changes, c.source? = none := fun c hc => (htells c hc).source?
  have hqueue : (p.begin changes cascade).2.queue = (settle changes).map fun c => (c, false) := by
    simp [Project.begin, hnormalize]
  refine ⟨(halfway_nil hp htidy).congr rfl rfl rfl, ?_, ?_, rfl, ⟨[], ?_⟩, ?_, ?_, ?_, ?_⟩
  · intro c cascaded hc
    rw [hqueue, List.mem_map] at hc
    obtain ⟨c', hc', hcc⟩ := hc
    obtain ⟨rfl, -⟩ := Prod.mk.inj hcc
    have hmem := List.mem_of_find?_eq_some ((mem_settle_of_plain hplain).1 hc')
    exact htells c' (List.mem_reverse.1 hmem)
  · intro f hf
    by_contra hne
    obtain ⟨c, hc, rfl⟩ := hnamed f hne
    obtain ⟨c', hc', hparts⟩ := exists_settle_of_plain hplain hc
    refine hf ?_
    simp only [Project.begin, hnormalize]
    rw [Batch.mem_foldl_insert fun c : Change => c.path.parts, ← hparts]
    exact .inr (List.mem_map_of_mem hc')
  · simp [hqueue]
  · simp
  · simp
  · simp
  · simp

/-- The end of a batch that took an edit in: `order` are the files that it was told of, and `past`
those that it visited. -/
structure Finished (d : Edit γ) (cascade : Bool) (start : Store) (order past : List Path)
    (q : Project) : Prop where
  consistent : q.Consistent
  halfway : d.Halfway start past q
  nodup : past.Nodup
  leads : order <+: past
  unvisited : ∀ {f}, f ∉ past → d.old f = d.new f
  closed : cascade = true → ∀ {f g t}, g ∈ past → d.Touches g t → d.read.Refers d.new f t →
    f ∈ past
  caused : ∀ {pre f post}, past = pre ++ f :: post → f ∉ order → ∃ g ∈ pre, ∃ t,
    d.Touches g t ∧ (d.read.Refers d.old f t ∨ d.read.Refers d.new f t)

section Ended

variable {start : Store} {order : List Change} {visits : List Visit} {q : Project} {b : Batch}
  (ht : Tracked visits q b) (h : d.Course start order visits q b)
include ht h

/-- A file with contents before or after that was taken from the queue was visited. -/
theorem Course.mem_of_processed {f : Path} (hf : d.old f ≠ none ∨ d.new f ≠ none)
    (hprocessed : f.parts ∈ b.processed) : f ∈ visits.map (·.change.path) := by
  obtain ⟨v, hv, hparts⟩ := ht.processed.1 hprocessed
  exact List.mem_map.2 ⟨v, hv, (h.tidy hv).eq (h.halfway.tidy hf) hparts⟩

variable (hnil : b.queue = [])
include hnil

omit h in
theorem Course.processed_of_queued {k : List Part} (hk : k ∈ b.queued) : k ∈ b.processed := by
  refine (ht.queued.1 hk).resolve_right ?_
  simp [Batch.keys, hnil]

theorem Course.unvisited {f : Path} (hf : f ∉ visits.map (·.change.path)) :
    d.old f = d.new f := by
  by_contra hne
  have hqueued : f.parts ∈ b.queued := by
    by_contra hnot
    exact hne (h.settled hnot)
  exact hf (h.mem_of_processed ht (ne_none_of_ne hne) (processed_of_queued ht hnil hqueued))

theorem Course.closed (hcascade : b.cascade = true) {f g : Path} {t : NodeId}
    (hg : g ∈ visits.map (·.change.path)) (htouches : d.Touches g t)
    (hrefers : d.read.Refers d.new f t) : f ∈ visits.map (·.change.path) := by
  by_contra hf
  have hold : d.read.Refers d.old f t := by
    rw [Reader.Refers, h.unvisited ht hnil hf]
    exact hrefers
  obtain ⟨v, hv, found, hok, hseed⟩ := h.touched hg htouches
  have hmem : f.parts ∈ q.references.filesOf t :=
    ht.consistent.referring.mem_filesOf.2 (h.halfway.refers.2 ⟨f, rfl, .inr ⟨hf, hold⟩⟩)
  have hqueued := ht.closed hcascade hv hok t hseed f.parts hmem
  exact hf (h.mem_of_processed ht (.inr hrefers.ne_none) (processed_of_queued ht hnil hqueued))

omit ht in
theorem Course.visits_eq : ∃ pulled : List Change, visits.map (fun v => (v.change, v.cascaded)) =
    order.map (·, false) ++ pulled.map (·, true) := by
  obtain ⟨pulled, hcourse⟩ := h.course
  rw [hnil, List.append_nil] at hcourse
  exact ⟨pulled, hcourse⟩

omit ht in
theorem Course.leads : order.map Change.path <+: visits.map (·.change.path) := by
  obtain ⟨pulled, hcourse⟩ := h.visits_eq hnil
  have hpaths := congrArg (List.map fun x : Change × Bool => x.1.path) hcourse
  simp only [List.map_map, List.map_append, Function.comp_def] at hpaths
  exact ⟨pulled.map Change.path, hpaths.symm⟩

theorem Course.caused {pre post : List Path} {f : Path}
    (hpast : visits.map (·.change.path) = pre ++ f :: post) (hf : f ∉ order.map Change.path) :
    ∃ g ∈ pre, ∃ t, d.Touches g t ∧ (d.read.Refers d.old f t ∨ d.read.Refers d.new f t) := by
  obtain ⟨before, later, rfl, rfl, hlater⟩ := List.map_eq_append_iff.1 hpast
  obtain ⟨v, after, rfl, rfl, rfl⟩ := List.map_eq_cons_iff.1 hlater
  have hcascaded : v.cascaded = true := by
    obtain ⟨pulled, hcourse⟩ := h.visits_eq hnil
    have hmem : (v.change, v.cascaded) ∈ order.map (·, false) ++ pulled.map (·, true) := by
      rw [← hcourse]
      exact List.mem_map_of_mem (List.mem_append_right _ List.mem_cons_self)
    rcases List.mem_append.1 hmem with hmem | hmem
    · obtain ⟨c, hc, hcv⟩ := List.mem_map.1 hmem
      exact absurd (List.mem_map.2 ⟨c, hc, by rw [(Prod.mk.inj hcv).1]⟩) hf
    · obtain ⟨c, -, hcv⟩ := List.mem_map.1 hmem
      exact (Prod.mk.inj hcv).2.symm
  obtain ⟨u, hu, -, -, found, hok, t, hseed, hk⟩ := ht.caused rfl hcascaded
  have hmem : u ∈ before ++ v :: after := List.mem_append_left _ hu
  obtain ⟨found', hok', htouches⟩ := h.seeds hmem
  obtain rfl := Except.ok.inj (hok.symm.trans hok')
  obtain ⟨f', hparts, hrefers⟩ := h.referred hmem hk
  have hcontent : d.old f' ≠ none ∨ d.new f' ≠ none :=
    hrefers.imp (fun hr => hr.ne_none) fun hr => hr.ne_none
  have htidy := h.tidy (v := v) (List.mem_append_right _ List.mem_cons_self)
  obtain rfl := (h.halfway.tidy hcontent).eq htidy hparts
  exact ⟨_, List.mem_map_of_mem hu, t, htouches t hseed, hrefers⟩

end Ended

/-- **A batch that takes an edit in**, if it names every file that was edited and nobody fails. -/
theorem finished_processChanges (ha : d.Apart) (hw : w.Obliging) (hreads : w.Reads d.read d.new)
    (hp : Drawn d.read d.old p) (htidy : ∀ f, d.new f ≠ none → p.root.Tidy f)
    (htells : ∀ c ∈ changes, c.Tells p.root d.new)
    (hnamed : ∀ f, d.old f ≠ d.new f → ∃ c ∈ changes, c.path = f) (cascade : Bool) :
    d.Finished cascade p.store ((settle changes).map Change.path)
      ((p.visits w changes cascade).map (·.change.path))
      (p.processChanges w changes cascade).1 ∧
    (p.processChanges w changes cascade).1.root = p.root := by
  obtain ⟨q, b, ht, ⟨h, hcascade, hroot⟩, hend, hprocess⟩ := Project.processChanges_visits w
    hp.consistent changes cascade
    (J := fun visits q b => d.Course p.store (settle changes) visits q b ∧ b.cascade = cascade ∧
      q.root = p.root)
    ⟨course_begin hp htidy htells hnamed cascade, rfl, rfl⟩ (by
      rintro visits p b c cascaded rest ht ⟨h, hcascade, hroot⟩ - hqueue
      obtain ⟨q, found, hs⟩ := h.exists_step hw hreads ht hqueue
      refine ⟨h.visit ha ht hqueue hs, (b.cascade_close c cascaded _).trans hcascade, ?_⟩
      rw [hs.project, hs.root, hroot])
  have hnil : b.queue = [] := by
    refine hend.resolve_right ?_
    simp [h.cancelled]
  have hnext : b.next w q = (q, b, .finished) := by rw [Batch.next, hnil]
  have hkeeps := Project.keeps_finish w q b
  rw [hprocess, hnext]
  refine ⟨⟨ht.consistent.congr hkeeps.store hkeeps.references,
    h.halfway.congr hkeeps.store hkeeps.references hkeeps.root, ?_, h.leads hnil,
    h.unvisited ht hnil, fun hc => h.closed ht hnil (hcascade.trans hc), h.caused ht hnil⟩,
    hkeeps.root.trans hroot⟩
  refine .of_map Path.parts ?_
  rw [List.map_map]
  exact ht.once

end Whole

namespace Finished

variable {cascade : Bool} {start : Store} {order past : List Path} {q : Project}
  (ha : d.Apart) (h : d.Finished cascade start order past q)
include ha h

theorem edge?_iff {i : EdgeId} {e : Edge} : q.store.edge? i = some e ↔
    ∃ f, d.read.edge? d.new f i = some e ∧
      (f ∈ past ∧ ¬ d.Severs past f e.target ∧ ¬ d.Overwrites start past f i ∨
        f ∉ past ∧ start.edge? i = some e ∧ ¬ d.Cuts past e.target) := by
  have hsame : ∀ {f}, f ∉ past → d.read.edge? d.old f i = d.read.edge? d.new f i := by
    intro f hf
    rw [Reader.edge?, h.unvisited hf, Reader.edge?]
  constructor
  · intro he
    rcases h.halfway.origin he with ⟨f, hf, hnew⟩ | ⟨f, hf, hold, hstart, hcut⟩
    · exact ⟨f, hnew, .inl ⟨hf, (h.halfway.done hf hnew).1 he⟩⟩
    · exact ⟨f, (hsame hf).symm.trans hold, .inr ⟨hf, hstart, hcut⟩⟩
  · rintro ⟨f, hnew, ⟨hf, hdone⟩ | ⟨hf, hstart, hcut⟩⟩
    · exact (h.halfway.done hf hnew).2 hdone
    · refine h.halfway.kept hf ((hsame hf).trans hnew) hstart hcut fun g hg => ?_
      cases hd : d.read.edge? d.new g i with
      | none => rfl
      | some _ => exact absurd (ha.new.edge?_apart hd hnew ▸ hg) hf

theorem node?_iff {i : NodeId} {n : Node} :
    q.store.node? i = some n ↔ ∃ f, d.read.node? d.new f i = some n := by
  have hsame : ∀ {f}, f ∉ past → d.read.node? d.old f i = d.read.node? d.new f i := by
    intro f hf
    rw [Reader.node?, h.unvisited hf, Reader.node?]
  rw [h.halfway.node?]
  constructor
  · rintro (⟨f, -, hn⟩ | ⟨-, f, hf, hn⟩)
    · exact ⟨f, hn⟩
    · exact ⟨f, hsame hf ▸ hn⟩
  · rintro ⟨f, hn⟩
    by_cases hf : f ∈ past
    · exact .inl ⟨f, hf, hn⟩
    · refine .inr ⟨fun g hg hd => hf ?_, f, hf, (hsame hf).trans hn⟩
      exact ha.new.declares (Reader.declares_iff.2 ⟨n, hn⟩) hd ▸ hg

theorem drawn : Drawn d.read d.new q where
  consistent := h.consistent
  node? := h.node?_iff ha
  edge? he := by
    obtain ⟨f, hf, -⟩ := (h.edge?_iff ha).1 he
    exact ⟨f, hf⟩
  refers {t k} := by
    rw [h.halfway.refers]
    refine exists_congr fun f => and_congr_right fun _ => ?_
    by_cases hf : f ∈ past
    · simp [hf]
    · simp [hf, Reader.Refers, h.unvisited hf]
  tidy hf := h.halfway.tidy (.inr hf)
  tidy_referring := h.halfway.tidy_referring

end Finished

end Edit

/-! ## Indexed files -/

/-- **A graph after some files were indexed** holds all that is found in them. -/
theorem drawn_indexFiles {γ : Type} {read : Reader γ} {files : Contents γ} (ha : read.Apart files)
    {w : World} (hw : w.Obliging) (hreads : w.Reads read files) {p : Project} (hp : p.Fresh)
    {paths : List Path} (hpaths : ∀ f, f ∈ paths ↔ files f ≠ none)
    (htidy : ∀ f ∈ paths, p.root.Tidy f) :
    Drawn read files (p.indexFiles w paths).1 ∧
      (∀ {i e}, (p.indexFiles w paths).1.store.edge? i = some e ↔
        ∃ f, read.edge? files f i = some e) ∧
      (p.indexFiles w paths).1.root = p.root := by
  have hnone : read.Apart fun _ => none :=
    ⟨by simp [Reader.find], by simp [Reader.find], by simp [Reader.find],
      by simp [Reader.Declares, Reader.find], by simp [Reader.find]⟩
  have hd : (Edit.mk read (fun _ => none) files).Apart := ⟨hnone, ha⟩
  have htells : ∀ c ∈ paths.map Change.created, c.Tells p.root files := by
    intro c hc
    obtain ⟨f, hf, rfl⟩ := List.mem_map.1 hc
    refine ⟨rfl, htidy f hf, ?_⟩
    simpa [Change.isDeletion, Change.created] using (hpaths f).1 hf
  have hnamed : ∀ f, none ≠ files f → ∃ c ∈ paths.map Change.created, c.path = f := fun f hf =>
    ⟨.created f, List.mem_map_of_mem ((hpaths f).2 (Ne.symm hf)), rfl⟩
  obtain ⟨h, hroot⟩ := Edit.finished_processChanges hd hw hreads (Drawn.empty read hp)
    (fun f hf => htidy f ((hpaths f).2 hf)) htells hnamed false
  -- There were no declarations and no edges before, so none were lost.
  have hsevers : ∀ past f t, ¬ (Edit.mk read (fun _ => none) files).Severs past f t := by
    rintro past f t ⟨pre, a, post, -, -, ⟨hold, -⟩, -⟩
    simp [Reader.Declares, Reader.find] at hold
  have hoverwrites : ∀ start past f i,
      ¬ (Edit.mk read (fun _ => none) files).Overwrites start past f i := by
    rintro start past f i ⟨pre, a, post, -, -, g, e, -, -, hold, -⟩
    simp [Reader.edge?, Reader.find] at hold
  refine ⟨h.drawn hd, fun {i e} => (h.edge?_iff hd).trans (exists_congr fun f => ?_), hroot⟩
  refine and_iff_left_of_imp fun he => .inl ⟨?_, hsevers _ _ _, hoverwrites _ _ _ _⟩
  by_contra hf
  exact Reader.edge?_ne_none he (h.unvisited hf).symm

end CodeGraph

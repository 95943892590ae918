import CodeGraph.Proofs.Repository

/-!
# What a failed flush leaves

A flush writes the graph beside the snapshot file and then puts it in its place. Any step may fail.
Whatever was asked of the repository since it was opened, and however often a flush failed, a new
repository finds the graph that was last flushed, and the next flush that meets no failure writes
the one of now.

* `Repository.Revision`: what changes the graph of a repository.
* `Repository.LeavesAlone`: a change of the disk that does not touch a file;
  `Repository.leavesAlone_replaceFile`: so is every replacement of the file that fails.
* `Repository.Kept`: a repository over its file, and the graph that was last flushed.
* `Repository.Persisted`: what all of these have in common.
* **`Repository.Kept.reopens_last_flush`**: the main statement.
-/

namespace CodeGraph.Repository

/-! ## Changing the graph -/

/-- A change of the graph. -/
inductive Revision where
  | saveNodes (nodes : List Node)
  | saveEdges (edges : List Edge)
  | deleteNodesByFile (path : Path)
  | deleteEdgesByFile (path : Path)

namespace Revision

/-- The repository after a change. -/
def apply (r : Repository) : Revision → Repository
  | saveNodes nodes => r.saveNodes nodes
  | saveEdges edges => r.saveEdges edges
  | deleteNodesByFile path => (r.deleteNodesByFile path).1
  | deleteEdgesByFile path => (r.deleteEdgesByFile path).1

theorem coherent_apply {r : Repository} (h : r.store.Coherent) (v : Revision) :
    (v.apply r).store.Coherent := by
  cases v with
  | saveNodes nodes => exact h.addNodes nodes
  | saveEdges edges => exact h.addEdges edges
  | deleteNodesByFile path =>
    rw [apply, Repository.deleteNodesByFile, store_touchIf]
    exact (h.removeNodesByFile path).removeDangling _
  | deleteEdgesByFile path =>
    rw [apply, Repository.deleteEdgesByFile, store_touchIf]
    exact h.removeEdgesByFile path

theorem backing_apply {r : Repository} {b : Backing} (hb : r.backing = some b) (v : Revision) :
    ∃ dirty, (v.apply r).backing = some ⟨b.path, dirty⟩ := by
  cases v with
  | saveNodes _ | saveEdges _ =>
    exact ⟨true, by simp [apply, Repository.saveNodes, Repository.saveEdges, touch, hb]⟩
  | deleteNodesByFile _ | deleteEdgesByFile _ =>
    simp [apply, Repository.deleteNodesByFile, Repository.deleteEdgesByFile, backing_touchIf, hb]

/-- Whatever changes the graph leaves a trace. -/
theorem apply_clean {r : Repository} (h : r.store.Coherent) {v : Revision} {file : Path}
    (hb : (v.apply r).backing = some ⟨file, false⟩) :
    r.backing = some ⟨file, false⟩ ∧ (v.apply r).store = r.store := by
  cases v with
  | saveNodes _ | saveEdges _ =>
    simp [apply, Repository.saveNodes, Repository.saveEdges, touch] at hb
  | deleteNodesByFile path => exact deleteNodesByFile_clean h hb
  | deleteEdgesByFile path => exact deleteEdgesByFile_clean hb

end Revision

/-! ## Leaving a file alone -/

/-- A change of the disk that does not touch a file: once the directory of the file is there, what
stands at the path is the same. -/
def LeavesAlone (file : Path) (d d' : Disk) : Prop :=
  ∀ d₁, prepare d file = .ok d₁ →
    ∃ d₂, prepare d' file = .ok d₂ ∧ d₂.entry? file = d₁.entry? file

theorem LeavesAlone.refl (file : Path) (d : Disk) : LeavesAlone file d d :=
  fun d₁ h => ⟨d₁, h, rfl⟩

theorem readFile_congr (r : Repository) {d₁ d₂ : Disk} {b : Backing}
    (h : d₂.entry? b.path = d₁.entry? b.path) : r.readFile d₂ b = r.readFile d₁ b := by
  unfold readFile Disk.exists? Disk.read
  rw [h]

section Reopen

variable {root : Path} {cacheDir : String} {d d' : Disk} {g : Snapshot}

theorem reopen_eq_ok (h : reopen root cacheDir d = .ok g) :
    ∃ d₁ r, (onDisk root cacheDir).setUp d = (d₁, r, .ok ()) ∧ r.graph = g := by
  unfold reopen at h
  split at h
  · rename_i d₁ r hset
    exact ⟨d₁, r, hset, Except.ok.inj h⟩
  · cases h

theorem LeavesAlone.reopen (h : LeavesAlone (snapshotPath root cacheDir) d d')
    (hg : Repository.reopen root cacheDir d = .ok g) :
    Repository.reopen root cacheDir d' = .ok g := by
  obtain ⟨d₁, r, hset, rfl⟩ := reopen_eq_ok hg
  obtain ⟨hb, -⟩ | ⟨b, hb, hprepare, hread⟩ := setUp_eq_ok hset
  · cases hb
  · obtain rfl : b = ⟨snapshotPath root cacheDir, false⟩ := (Option.some.inj hb).symm
    obtain ⟨d₂, hprepare', hentry⟩ := h d₁ hprepare
    have hsame := readFile_congr (onDisk root cacheDir) (b := ⟨snapshotPath root cacheDir, false⟩)
      hentry
    have hset' : (onDisk root cacheDir).setUp d' = (d₂, r, .ok ()) := by
      simp only [setUp, hb, hprepare', hsame.trans hread]
    exact reopen_eq hset'

end Reopen

theorem replaceFile_eq_error {refuses : SaveStep → Bool} {d d' : Disk} {file : Path} {text : String}
    {e : Error} (h : replaceFile refuses d file text = (d', .error e)) :
    d' = d ∨ ∃ d₁, prepare d file = .ok d₁ ∧
      (d' = d₁ ∨ d₁.write (temporaryPath file) text = .ok d') := by
  unfold replaceFile at h
  dsimp only at h
  split at h
  · cases h
    exact .inl rfl
  · rename_i d₁ hmake
    have hprepare : prepare d file = .ok d₁ := prepare_eq_ok.2 (attempt_eq_ok hmake)
    split at h
    · cases h
      exact .inr ⟨_, hprepare, .inl rfl⟩
    · rename_i d₂ hwrite
      split at h
      · cases h
        exact .inr ⟨d₁, hprepare, .inr (attempt_eq_ok hwrite)⟩
      · cases h

theorem leavesAlone_replaceFile {refuses : SaveStep → Bool} {d d' : Disk} {file : Path}
    {text : String} {e : Error} {segs : List (List Char)} {name : List Char}
    (hp : file.EndsIn segs name) (h : replaceFile refuses d file text = (d', .error e)) :
    LeavesAlone file d d' := by
  obtain rfl | ⟨d₁, hprepare, hd⟩ := replaceFile_eq_error h
  · exact .refl file d'
  · intro d₂ hd₂
    obtain rfl : d₁ = d₂ := Except.ok.inj (hprepare.symm.trans hd₂)
    obtain rfl | hwrite := hd
    · exact ⟨d', prepare_stable hprepare (.refl d'), rfl⟩
    · -- The temporary file stands beside the file, under another name.
      have htmp := hp.temporaryPath
      obtain ⟨l, henters, hnot, rfl⟩ := Disk.write_eq_ok htmp hwrite
      have hext : d₁.Extends (d₁.put (Disk.fileIn l (name ++ ".tmp".toList)) (.file text)) :=
        Disk.extends_put fun hl => absurd hl hnot
      have hfile := hp.enters_temporaryPath henters
      have hother : Disk.fileIn l name ≠ Disk.fileIn l (name ++ ".tmp".toList) :=
        Disk.fileIn_ne (by simp) l
      refine ⟨_, prepare_stable hprepare hext, ?_⟩
      rw [Disk.entry?_of_enters hp (hfile.extends hext), Disk.entry?_of_enters hp hfile,
        Disk.entryAt?_put (Disk.fileIn_ne_nil _ _), if_neg hother]

/-! ## Flushing -/

/-- None of the steps fails in which the graph of a repository is written to a file. -/
def Unhindered (refuses : SaveStep → Bool) (r : Repository) (d : Disk) (file : Path)
    (now : String) : Prop :=
  (∀ step, refuses step = false) ∧
    ∃ d₁ d₂ d₃, prepare d file = .ok d₁ ∧
      d₁.write (temporaryPath file) (SnapshotFile.ofGraph now r.graph).text = .ok d₂ ∧
      d₂.rename (temporaryPath file) file = .ok d₃

/-- A flush that fails was needed, and changes nothing but the disk. -/
theorem flushWith_eq_error {refuses : SaveStep → Bool} {r : Repository} {d : Disk} {now : String}
    {e : Error} (h : (r.flushWith refuses d now).2.2 = .error e) :
    ∃ b, r.backing = some b ∧ b.dirty = true ∧ (r.flushWith refuses d now).2.1 = r ∧
      replaceFile refuses d b.path (SnapshotFile.ofGraph now r.graph).text =
        ((r.flushWith refuses d now).1, .error e) := by
  unfold flushWith at h ⊢
  cases hb : r.backing with
  | none => simp [hb] at h
  | some b =>
    cases hdirty : b.dirty with
    | false => simp [hb, hdirty] at h
    | true =>
      rcases hreplace : replaceFile refuses d b.path (SnapshotFile.ofGraph now r.graph).text with
        ⟨d', e' | _⟩
      · obtain rfl : e' = e := by simpa [hb, hdirty, hreplace] using h
        exact ⟨b, rfl, hdirty, by simp [hdirty, hreplace], by simp [hdirty, hreplace]⟩
      · simp [hb, hdirty, hreplace] at h

theorem flushWith_of_unhindered {refuses : SaveStep → Bool} {r : Repository} {d : Disk}
    {now : String} {b : Backing} (hb : r.backing = some b)
    (h : Unhindered refuses r d b.path now) : (r.flushWith refuses d now).2.2 = .ok () := by
  obtain ⟨hrefuses, d₁, d₂, d₃, hprepare, hwrite, hrename⟩ := h
  have hreplace : replaceFile refuses d b.path (SnapshotFile.ofGraph now r.graph).text =
      (d₃, .ok ()) := by
    simp [replaceFile, attempt, hrefuses, prepare_eq_ok.1 hprepare, hwrite, hrename]
  cases hdirty : b.dirty <;> simp [flushWith, hb, hdirty, hreplace]

/-! ## What a new repository finds -/

section Kept

variable (root : Path) (cacheDir : String)

/-- A repository over the snapshot file of a project, the disk, and the graph that was flushed last,
or read when the repository was opened. -/
inductive Kept : Repository → Disk → Snapshot → Prop
  | opened {d d' r} (h : (onDisk root cacheDir).setUp d = (d', r, .ok ())) : Kept r d' r.graph
  | revised {r d g} (h : Kept r d g) (v : Revision) : Kept (v.apply r) d g
  | flushed {r d g refuses now} (h : Kept r d g)
    (hf : (r.flushWith refuses d now).2.2 = .ok ()) :
    Kept (r.flushWith refuses d now).2.1 (r.flushWith refuses d now).1 r.graph
  | failed {r d g refuses now e} (h : Kept r d g)
    (hf : (r.flushWith refuses d now).2.2 = .error e) :
    Kept (r.flushWith refuses d now).2.1 (r.flushWith refuses d now).1 g
  /-- Something else changes on the disk. -/
  | elsewhere {r d d' g} (h : Kept r d g)
    (hd : LeavesAlone (snapshotPath root cacheDir) d d') : Kept r d' g

/-- A new repository finds a graph, and it is the one of now unless the repository knows that its
file is out of date. -/
structure Persisted (r : Repository) (d : Disk) (g : Snapshot) : Prop where
  coherent : r.store.Coherent
  backing : ∃ dirty, r.backing = some ⟨snapshotPath root cacheDir, dirty⟩
  reopen : Repository.reopen root cacheDir d = .ok g
  clean : r.backing = some ⟨snapshotPath root cacheDir, false⟩ → g = r.graph

variable {root cacheDir}

namespace Persisted

variable {r : Repository} {d : Disk} {g : Snapshot} (h : Persisted root cacheDir r d g)
include h

theorem reopen_of_clean {dirty : Bool}
    (hb : r.backing = some ⟨snapshotPath root cacheDir, dirty⟩) (hdirty : dirty = false) :
    Repository.reopen root cacheDir d = .ok r.graph := by
  subst hdirty
  rw [← h.clean hb]
  exact h.reopen

theorem revised (v : Revision) : Persisted root cacheDir (v.apply r) d g := by
  obtain ⟨dirty, hb⟩ := h.backing
  refine ⟨v.coherent_apply h.coherent, v.backing_apply hb, h.reopen, fun hclean => ?_⟩
  obtain ⟨hr, hstore⟩ := Revision.apply_clean h.coherent hclean
  rw [h.clean hr, graph, graph, hstore]

theorem flushed {refuses : SaveStep → Bool} {now : String}
    (hf : (r.flushWith refuses d now).2.2 = .ok ()) :
    Persisted root cacheDir (r.flushWith refuses d now).2.1 (r.flushWith refuses d now).1
      r.graph := by
  obtain ⟨dirty, hb⟩ := h.backing
  obtain ⟨hreopen, hflushed⟩ := reopen_flushWith hb h.coherent (h.reopen_of_clean hb) hf
  have hstore := store_flushWith refuses r d now
  refine ⟨hstore ▸ h.coherent, ⟨false, hflushed⟩, hreopen, fun _ => ?_⟩
  rw [graph, graph, hstore]

theorem elsewhere {d' : Disk} (hd : LeavesAlone (snapshotPath root cacheDir) d d') :
    Persisted root cacheDir r d' g :=
  ⟨h.coherent, h.backing, hd.reopen h.reopen, h.clean⟩

theorem failed {refuses : SaveStep → Bool} {now : String} {e : Error}
    (hf : (r.flushWith refuses d now).2.2 = .error e) :
    Persisted root cacheDir (r.flushWith refuses d now).2.1 (r.flushWith refuses d now).1 g := by
  obtain ⟨dirty, hb⟩ := h.backing
  obtain ⟨segs, hp⟩ := endsIn_snapshotPath root cacheDir
  obtain ⟨b, hb', -, hr, hreplace⟩ := flushWith_eq_error hf
  obtain rfl : b = ⟨snapshotPath root cacheDir, dirty⟩ := Option.some.inj (hb'.symm.trans hb)
  rw [hr]
  exact h.elsewhere (leavesAlone_replaceFile hp hreplace)

end Persisted

theorem Kept.persisted {r : Repository} {d : Disk} {g : Snapshot} (h : Kept root cacheDir r d g) :
    Persisted root cacheDir r d g := by
  induction h with
  | opened h =>
    obtain ⟨hreopen, hb⟩ := reopen_setUp h
    exact ⟨coherent_setUp Store.coherent_empty h, ⟨false, hb⟩, hreopen, fun _ => rfl⟩
  | revised _ v ih => exact ih.revised v
  | flushed _ hf ih => exact ih.flushed hf
  | failed _ hf ih => exact ih.failed hf
  | elsewhere _ hd ih => exact ih.elsewhere hd

/-- **A new repository finds the graph that was flushed last**, and that is the one of now if the
file does not count as out of date. After a flush that failed it does, so that the next flush which
meets no failure writes the graph of now. -/
theorem Kept.reopens_last_flush {r : Repository} {d : Disk} {g : Snapshot}
    (h : Kept root cacheDir r d g) (refuses : SaveStep → Bool) (now : String) :
    reopen root cacheDir d = .ok g ∧
    (∃ dirty, r.backing = some ⟨snapshotPath root cacheDir, dirty⟩ ∧
      (dirty = false → reopen root cacheDir d = .ok r.graph)) ∧
    (∀ e, (r.flushWith refuses d now).2.2 = .error e →
      (r.flushWith refuses d now).2.1.backing = some ⟨snapshotPath root cacheDir, true⟩ ∧
      (r.flushWith refuses d now).2.1.graph = r.graph ∧
      reopen root cacheDir (r.flushWith refuses d now).1 = .ok g) ∧
    (Unhindered refuses r d (snapshotPath root cacheDir) now →
      (r.flushWith refuses d now).2.2 = .ok () ∧
      (r.flushWith refuses d now).2.1.backing = some ⟨snapshotPath root cacheDir, false⟩ ∧
      (r.flushWith refuses d now).2.1.graph = r.graph ∧
      reopen root cacheDir (r.flushWith refuses d now).1 = .ok r.graph) := by
  have hp := h.persisted
  obtain ⟨dirty, hb⟩ := hp.backing
  have hgraph : (r.flushWith refuses d now).2.1.graph = r.graph :=
    congrArg Store.snapshot (store_flushWith refuses r d now)
  refine ⟨hp.reopen, ⟨dirty, hb, hp.reopen_of_clean hb⟩,
    fun e hf => ⟨?_, hgraph, (hp.failed hf).reopen⟩, fun hu => ?_⟩
  · obtain ⟨b, hb', hdirty, hr, -⟩ := flushWith_eq_error hf
    rw [hr, hb]
    rw [Option.some.inj (hb'.symm.trans hb)] at hdirty
    exact congrArg some (congrArg (Backing.mk _) hdirty)
  · have hf := flushWith_of_unhindered hb hu
    obtain ⟨hreopen, hflushed⟩ := reopen_flushWith hb hp.coherent (hp.reopen_of_clean hb) hf
    exact ⟨hf, hflushed, hgraph, hreopen⟩

/-- A repository over an empty disk after a declaration was saved and a flush failed to put its file
in place. -/
def hindered : Disk × Repository × Except Error Unit :=
  let (d, r, _) := (onDisk ⟨"/r"⟩ ".arbor").setUp {}
  let found : Node :=
    { id := "a", name := "a", qualifiedName := "a", kind := .file, file := ⟨"a.cs"⟩ }
  (r.saveNodes [found]).flushWith (· == .renameFile) d "today"

theorem kept_hindered : Kept ⟨"/r"⟩ ".arbor" hindered.2.1 hindered.1 ⟨[], []⟩ := by
  have hset : ((onDisk ⟨"/r"⟩ ".arbor").setUp {}).2.2 = .ok () := by decide
  have hgraph : ((onDisk ⟨"/r"⟩ ".arbor").setUp {}).2.1.graph = ⟨[], []⟩ := by decide
  have hopened : Kept ⟨"/r"⟩ ".arbor" ((onDisk ⟨"/r"⟩ ".arbor").setUp {}).2.1
      ((onDisk ⟨"/r"⟩ ".arbor").setUp {}).1 ⟨[], []⟩ :=
    hgraph ▸ .opened (Prod.ext rfl (Prod.ext rfl hset))
  have hfails : hindered.2.2 = .error .io := by decide
  exact .failed (hopened.revised (.saveNodes _)) hfails

/-- The declaration is not in the file yet, and the next flush writes it. -/
theorem Kept.reopens_last_flush_hindered :
    Kept ⟨"/r"⟩ ".arbor" hindered.2.1 hindered.1 ⟨[], []⟩ ∧
    hindered.2.1.graph.nodes.map Node.id = ["a"] ∧
    reopen ⟨"/r"⟩ ".arbor" hindered.1 = .ok ⟨[], []⟩ ∧
    reopen ⟨"/r"⟩ ".arbor" (hindered.2.1.flush hindered.1 "tomorrow").1 =
      .ok hindered.2.1.graph := by
  have hsteps : (replaceFile (fun _ => false) hindered.1 (snapshotPath ⟨"/r"⟩ ".arbor")
      (SnapshotFile.ofGraph "tomorrow" hindered.2.1.graph).text).2 = .ok () := by decide
  obtain ⟨d₁, d₂, hprepare, hwrite, hrename⟩ := replaceFile_steps (Prod.ext rfl hsteps)
  have h := Kept.reopens_last_flush kept_hindered (fun _ => false) "tomorrow"
  exact ⟨kept_hindered, by decide, h.1,
    (h.2.2.2 ⟨fun _ => rfl, d₁, d₂, _, hprepare, hwrite, hrename⟩).2.2.2⟩

end Kept

end CodeGraph.Repository

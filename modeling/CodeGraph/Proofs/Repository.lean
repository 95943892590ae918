import CodeGraph.Proofs.Disk
import CodeGraph.Proofs.Json.Declaration
import CodeGraph.Proofs.Store.Copy
import CodeGraph.Repository

/-!
# What the snapshot file holds

A repository that was written to its file can be opened again, and holds the same graph.

* `SnapshotFile.ofText?_text`: the text of a snapshot file reads as its contents.
* `Repository.forgetFile`, `Repository.saveAll`: what is asked of a repository.
* `Repository.replaceFile_eq_ok`: a file that was replaced can be read.
* `Repository.reopen`: the graph that a new repository finds.
* **`Repository.reopen_setUp`**, **`Repository.reopen_flushWith`**: it finds what the old one had
  read, or has written.
-/

namespace CodeGraph

/-! ## The contents of the file -/

namespace SnapshotFile

/-- The fields of the file that are not the graph's. -/
def fields (f : SnapshotFile) : List (String × Option Json) :=
  [("version", some (.str f.version)), ("saved_at", some (.str f.savedAt)),
   ("node_count", some (.word64 f.nodeCount)), ("edge_count", some (.word64 f.edgeCount))]

theorem flat?_toJson (f : SnapshotFile) :
    f.toJson.tree.flat? fieldNames Snapshot.fieldNames =
      some (f.fields.map fun x => x.2.map Json.tree,
        f.graph.fields.map fun x => x.2.map Json.tree) := by
  have hnodup : ((f.fields ++ f.graph.fields).map Prod.fst).Nodup := by
    have hnames : (fieldNames ++ Snapshot.fieldNames).Nodup := by decide
    exact hnames
  exact Json.flat?_fields hnodup fun x hx j hj => f.graph.isBuffered_fields hx hj

/-- **The text of a snapshot file reads as its contents.** -/
theorem ofText?_text (f : SnapshotFile) : ofText? f.text = some f := by
  rw [ofText?, text, Json.parse?_pretty, Option.bind_some]
  simp only [ofJson?, flat?_toJson, fields, List.map_cons, List.map_nil, Option.map_some,
    Json.reads_text.required, Json.reads_word64.required, Snapshot.ofFields?_fields,
    Option.bind_eq_bind, Option.bind_some]

end SnapshotFile

/-! ## What is asked of the repository -/

namespace Repository

/-- Takes everything out that is held for a file. -/
def forgetFile (r : Repository) (path : Path) : Repository :=
  ((r.deleteNodesByFile path).1.deleteEdgesByFile path).1

/-- Stores the analysis of a file. -/
def saveAll (r : Repository) (nodes : List Node) (edges : List Edge) : Repository :=
  (r.saveNodes nodes).saveEdges edges

@[simp] theorem store_touchIf (r : Repository) (changed : Bool) :
    (r.touchIf changed).store = r.store := by
  unfold touchIf
  split <;> rfl

theorem store_forgetFile (r : Repository) (path : Path) :
    (r.forgetFile path).store =
      (((r.store.removeNodesByFile path).1.removeDangling
        (r.store.removeNodesByFile path).2).removeEdgesByFile path).1 := by
  simp [forgetFile, deleteEdgesByFile, deleteNodesByFile, Store.removeDangling]

theorem store_saveAll (r : Repository) (nodes : List Node) (edges : List Edge) :
    (r.saveAll nodes edges).store = (r.store.addNodes nodes).addEdges edges := rfl

theorem backing_touchIf (r : Repository) (changed : Bool) :
    (r.touchIf changed).backing =
      r.backing.map fun b => { b with dirty := b.dirty || changed } := by
  unfold touchIf touch
  cases changed <;> cases hb : r.backing <;> simp [hb]

theorem backing_forgetFile {r : Repository} {b : Backing} (hb : r.backing = some b) (path : Path) :
    ∃ dirty, (r.forgetFile path).backing = some ⟨b.path, dirty⟩ := by
  simp [forgetFile, deleteEdgesByFile, deleteNodesByFile, backing_touchIf, hb]

theorem backing_saveAll {r : Repository} {b : Backing} (hb : r.backing = some b)
    (nodes : List Node) (edges : List Edge) :
    (r.saveAll nodes edges).backing = some ⟨b.path, true⟩ := by
  simp [saveAll, saveNodes, saveEdges, touch, hb]

theorem touchIf_clean {r : Repository} {changed : Bool} {file : Path}
    (hb : (r.touchIf changed).backing = some ⟨file, false⟩) :
    r.backing = some ⟨file, false⟩ ∧ changed = false := by
  rw [backing_touchIf, Option.map_eq_some_iff] at hb
  obtain ⟨⟨file', dirty⟩, hr, hfile⟩ := hb
  simp only [Backing.mk.injEq, Bool.or_eq_false_iff] at hfile
  obtain ⟨rfl, rfl, hchanged⟩ := hfile
  exact ⟨hr, hchanged⟩

theorem deleteNodesByFile_clean {r : Repository} (h : r.store.Coherent) {path file : Path}
    (hb : (r.deleteNodesByFile path).1.backing = some ⟨file, false⟩) :
    r.backing = some ⟨file, false⟩ ∧ (r.deleteNodesByFile path).1.store = r.store := by
  simp only [deleteNodesByFile] at hb
  obtain ⟨hr, hnodes⟩ := touchIf_clean hb
  have hnil : (r.store.removeNodesByFile path).2 = [] := by simpa using hnodes
  refine ⟨hr, ?_⟩
  simp only [deleteNodesByFile, store_touchIf, hnil, List.foldl_nil]
  exact Store.removeNodesByFile_eq_self h hnil

theorem deleteEdgesByFile_clean {r : Repository} {path file : Path}
    (hb : (r.deleteEdgesByFile path).1.backing = some ⟨file, false⟩) :
    r.backing = some ⟨file, false⟩ ∧ (r.deleteEdgesByFile path).1.store = r.store := by
  simp only [deleteEdgesByFile] at hb
  obtain ⟨hr, hedges⟩ := touchIf_clean hb
  have hzero : (r.store.removeEdgesByFile path).2 = 0 := by simpa using hedges
  refine ⟨hr, ?_⟩
  rw [deleteEdgesByFile, store_touchIf]
  exact Store.removeEdges_eq_self hzero

/-- Whatever is forgotten leaves a trace: if the file still counts as unchanged, it did before, and
nothing was forgotten. -/
theorem forgetFile_clean {r : Repository} (h : r.store.Coherent) {path file : Path}
    (hb : (r.forgetFile path).backing = some ⟨file, false⟩) :
    r.backing = some ⟨file, false⟩ ∧ (r.forgetFile path).store = r.store := by
  obtain ⟨hnodes, hedges⟩ := deleteEdgesByFile_clean hb
  obtain ⟨hr, hstore⟩ := deleteNodesByFile_clean h hnodes
  exact ⟨hr, hedges.trans hstore⟩

end Repository

/-! ## Replacing a file -/

theorem endsIn_snapshotPath (root : Path) (cacheDir : String) :
    ∃ segs, (snapshotPath root cacheDir).EndsIn segs "graph.json".toList := by
  have hname : Disk.IsName "graph.json".toList := by
    refine ⟨?_, ?_, ?_⟩ <;> decide
  have hfile : splitSlash "graph.json".toList = ["graph.json".toList] :=
    splitSlash_of_not_mem (by decide)
  unfold snapshotPath
  generalize cachePath root cacheDir = cache
  unfold Path.join
  rw [if_neg (by decide)]
  split
  · exact ⟨[], hfile, hname⟩
  · split
    · rename_i hlast
      have hcache : cache.text.toList.dropLast ++ ['/'] = cache.text.toList :=
        List.dropLast_append_getLast? '/' (by simpa using hlast)
      refine ⟨splitSlash cache.text.toList.dropLast, ?_, hname⟩
      rw [String.toList_append, ← hcache, List.append_assoc, List.singleton_append,
        splitSlash_append_slash, List.dropLast_concat]
      exact congrArg _ hfile
    · refine ⟨splitSlash cache.text.toList, ?_, hname⟩
      rw [String.toList_append, String.toList_append, List.append_assoc]
      exact (splitSlash_append_slash _ _).trans (congrArg _ hfile)

theorem Path.EndsIn.temporaryPath {p : Path} {segs : List (List Char)} {name : List Char}
    (h : p.EndsIn segs name) :
    (CodeGraph.temporaryPath p).EndsIn segs (name ++ ".tmp".toList) := by
  refine ⟨?_, ?_⟩
  · rw [CodeGraph.temporaryPath, String.toList_append]
    exact splitSlash_append (by decide) h.split
  · have hlong : 4 ≤ (name ++ ".tmp".toList).length := by simp
    refine ⟨?_, ?_, ?_⟩ <;> intro he <;> rw [he] at hlong <;> revert hlong <;> decide

theorem Path.EndsIn.enters_temporaryPath {p : Path} {segs : List (List Char)} {name : List Char}
    (h : p.EndsIn segs name) {d : Disk} {l : Location}
    (ht : d.Enters (CodeGraph.temporaryPath p) segs l) : d.Enters p segs l := by
  have habsolute : (CodeGraph.temporaryPath p).isAbsolute = p.isAbsolute := by
    obtain ⟨c, cs, hc⟩ : ∃ c cs, p.text.toList = c :: cs :=
      List.exists_cons_of_ne_nil (by simpa using h.text_ne_empty)
    simp [Path.isAbsolute, CodeGraph.temporaryPath, hc]
  refine ⟨?_, ht.directory⟩
  have halong := ht.along
  rwa [Disk.startOf, habsolute] at halong

namespace Repository

theorem prepare_eq_ok {d d₁ : Disk} {file : Path} :
    prepare d file = .ok d₁ ↔ file.parent?.elim (.ok d) d.makeDirs = .ok d₁ := by
  unfold prepare
  cases file.parent? with
  | none => simp
  | some dir => cases hmake : d.makeDirs dir <;> simp [hmake, Except.mapError]

theorem prepare_stable {d d₁ d' : Disk} {file : Path} (h : prepare d file = .ok d₁)
    (he : d₁.Extends d') : prepare d' file = .ok d' := by
  unfold prepare at h ⊢
  split at h
  · rfl
  · rename_i dir _
    cases hmake : d.makeDirs dir with
    | error reason => simp [hmake, Except.mapError] at h
    | ok d₂ =>
      obtain rfl : d₂ = d₁ := by simpa [hmake, Except.mapError] using h
      simp only [Disk.makeDirs_stable hmake he, Except.mapError]

theorem attempt_eq_ok {refuses : SaveStep → Bool} {step : SaveStep} {action : Except Refusal Disk}
    {d : Disk} (h : attempt refuses step action = .ok d) : action = .ok d := by
  unfold attempt at h
  split at h
  · cases h
  · exact h

theorem replaceFile_steps {refuses : SaveStep → Bool} {d d' : Disk} {file : Path} {text : String}
    (h : replaceFile refuses d file text = (d', .ok ())) :
    ∃ d₁ d₂, prepare d file = .ok d₁ ∧ d₁.write (temporaryPath file) text = .ok d₂ ∧
      d₂.rename (temporaryPath file) file = .ok d' := by
  unfold replaceFile at h
  dsimp only at h
  split at h
  · cases h
  · rename_i d₁ hmake
    split at h
    · cases h
    · rename_i d₂ hwrite
      split at h
      · cases h
      · rename_i d₃ hrename
        cases h
        exact ⟨d₁, d₂, prepare_eq_ok.2 (attempt_eq_ok hmake), attempt_eq_ok hwrite,
          attempt_eq_ok hrename⟩

theorem replaceFile_eq_ok {refuses : SaveStep → Bool} {d d' : Disk} {file : Path} {text : String}
    {segs : List (List Char)} {name : List Char} (hp : file.EndsIn segs name)
    (h : replaceFile refuses d file text = (d', .ok ())) :
    prepare d' file = .ok d' ∧ d'.read file = .ok text := by
  obtain ⟨d₁, d₂, hprepare, hwrite, hrename⟩ := replaceFile_steps h
  have htmp := hp.temporaryPath
  obtain ⟨l, henters, hnot, rfl⟩ := Disk.write_eq_ok htmp hwrite
  have hext : d₁.Extends (d₁.put (Disk.fileIn l (name ++ ".tmp".toList)) (.file text)) :=
    Disk.extends_put fun hl => absurd hl hnot
  have hfile : d₁.Enters file segs l := hp.enters_temporaryPath henters
  have hwritten : (d₁.put (Disk.fileIn l (name ++ ".tmp".toList)) (.file text)).entryAt?
      (Disk.fileIn l (name ++ ".tmp".toList)) = some (.file text) := by
    rw [Disk.entryAt?_put (Disk.fileIn_ne_nil _ _), if_pos rfl]
  obtain ⟨hext', hread⟩ := Disk.rename_eq_ok hp htmp (by simp) (hfile.extends hext)
    (henters.extends hext) hwritten hrename
  exact ⟨prepare_stable hprepare (hext.trans hext'),
    Disk.read_of_enters hp (hfile.extends (hext.trans hext')) hread⟩

/-! ## Opening a repository again -/

/-- The graph that a new repository finds. -/
def reopen (root : Path) (cacheDir : String) (d : Disk) : Except Error Snapshot :=
  match (onDisk root cacheDir).setUp d with
  | (_, r, .ok ()) => .ok r.graph
  | (_, _, .error e) => .error e

theorem readFile_eq_ok {r r' : Repository} {d : Disk} {b : Backing} (h : r.readFile d b = .ok r') :
    (∃ g, r' = ⟨.ofSnapshot g, some { b with dirty := false }⟩) ∨ r' = r := by
  unfold readFile at h
  split at h
  · split at h
    · cases h
    · split at h
      · cases h
        exact .inl ⟨_, rfl⟩
      · cases h
  · cases h
    exact .inr rfl

theorem readFile_of_read (r : Repository) {d : Disk} {b : Backing} {f : SnapshotFile}
    (h : d.read b.path = .ok f.text) :
    r.readFile d b = .ok ⟨.ofSnapshot f.graph, some { b with dirty := false }⟩ := by
  simp only [readFile, Disk.exists?_of_read h, if_true, h, SnapshotFile.ofText?_text]

theorem setUp_eq_ok {r r' : Repository} {d d' : Disk} (h : r.setUp d = (d', r', .ok ())) :
    (r.backing = none ∧ r' = r) ∨
      ∃ b, r.backing = some b ∧ prepare d b.path = .ok d' ∧ r.readFile d' b = .ok r' := by
  unfold setUp at h
  split at h
  · cases h
    exact .inl ⟨‹_›, rfl⟩
  · rename_i b hb
    split at h
    · cases h
    · rename_i hprepare
      split at h
      · cases h
      · rename_i hread
        cases h
        exact .inr ⟨b, hb, hprepare, hread⟩

theorem coherent_setUp {r r' : Repository} {d d' : Disk} (h : r.store.Coherent)
    (hr : r.setUp d = (d', r', .ok ())) : r'.store.Coherent := by
  obtain ⟨-, rfl⟩ | ⟨b, -, -, hread⟩ := setUp_eq_ok hr
  · exact h
  · obtain ⟨g, rfl⟩ | rfl := readFile_eq_ok hread
    · exact Store.coherent_ofSnapshot g
    · exact h

section Reopen

variable {root : Path} {cacheDir : String} {d d' : Disk}

theorem reopen_eq {r : Repository} (h : (onDisk root cacheDir).setUp d = (d', r, .ok ())) :
    reopen root cacheDir d = .ok r.graph := by
  unfold reopen
  rw [h]

/-- **A new repository finds what another one has just read.** -/
theorem reopen_setUp {r : Repository} (h : (onDisk root cacheDir).setUp d = (d', r, .ok ())) :
    reopen root cacheDir d' = .ok r.graph ∧
      r.backing = some ⟨snapshotPath root cacheDir, false⟩ := by
  obtain ⟨hb, -⟩ | ⟨b, hb, hprepare, hread⟩ := setUp_eq_ok h
  · cases hb
  · obtain rfl : b = ⟨snapshotPath root cacheDir, false⟩ := (Option.some.inj hb).symm
    have hagain := prepare_stable hprepare (.refl d')
    have hset : (onDisk root cacheDir).setUp d' = (d', r, .ok ()) := by
      simp only [setUp, hb, hagain, hread]
    refine ⟨reopen_eq hset, ?_⟩
    obtain ⟨g, rfl⟩ | rfl := readFile_eq_ok hread
    · rfl
    · rfl

/-- **A new repository finds what another one has flushed**: the file is written, or nothing has
changed since it was read or written. -/
theorem reopen_flushWith {r : Repository} {dirty : Bool}
    (hb : r.backing = some ⟨snapshotPath root cacheDir, dirty⟩) (hc : r.store.Coherent)
    (hclean : dirty = false → reopen root cacheDir d = .ok r.graph) {refuses : SaveStep → Bool}
    {now : String} (h : (r.flushWith refuses d now).2.2 = .ok ()) :
    reopen root cacheDir (r.flushWith refuses d now).1 = .ok r.graph ∧
      (r.flushWith refuses d now).2.1.backing = some ⟨snapshotPath root cacheDir, false⟩ := by
  cases dirty with
  | false =>
    have hnothing : r.flushWith refuses d now = (d, r, .ok ()) := by simp [flushWith, hb]
    rw [hnothing]
    exact ⟨hclean rfl, hb⟩
  | true =>
    obtain ⟨segs, hp⟩ := endsIn_snapshotPath root cacheDir
    rcases hreplace : replaceFile refuses d (snapshotPath root cacheDir)
      (SnapshotFile.ofGraph now r.graph).text with ⟨d', e | _⟩
    · simp [flushWith, hb, hreplace] at h
    · obtain ⟨hprepare, hread⟩ := replaceFile_eq_ok hp hreplace
      have hfile := readFile_of_read (onDisk root cacheDir)
        (b := ⟨snapshotPath root cacheDir, false⟩) hread
      have hset : (onDisk root cacheDir).setUp d' =
          (d', ⟨.ofSnapshot r.graph, some ⟨snapshotPath root cacheDir, false⟩⟩, .ok ()) := by
        simp only [setUp, onDisk, hprepare] at hfile ⊢
        rw [hfile]
        rfl
      simp only [flushWith, hb, hreplace, if_true, and_true]
      rw [reopen_eq hset, graph, graph, Store.ofSnapshot_snapshot hc]

end Reopen

theorem store_flushWith (refuses : SaveStep → Bool) (r : Repository) (d : Disk) (now : String) :
    (r.flushWith refuses d now).2.1.store = r.store := by
  unfold flushWith
  split
  · rfl
  · split
    · split <;> rfl
    · rfl

end Repository

end CodeGraph

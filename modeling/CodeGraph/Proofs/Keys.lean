import CodeGraph.Command.Question
import CodeGraph.Proofs.Location
import CodeGraph.Proofs.Watch.Intake
import CodeGraph.Update.Batch

/-!
# Keys of files

A file is known by its path as seen from the root. The root is canonical, so a path below it can be
put after it and seen from it again. The watcher, a batch and the command line look at a path only
as it is seen from the root.

* `ProjectRoot.Canonical`, `ProjectRoot.canonical_ofPath`, `ProjectRoot.canonical_discover`: the
  roots that a project can have.
* `ProjectRoot.relative_absolute`, `ProjectRoot.Holds.relative_absolute`: paths below the root.
* `FileEvent.changes_eq_of_relative`, `Project.normalizeChange_eq_self`: where keys are used.
* **`ProjectRoot.key_stable`**: the main statement.
-/

namespace CodeGraph

/-! ## Canonical roots -/

theorem Path.legible_of_parts {p : Path} {ps : List Part} (h : p.parts = .root :: ps) :
    ∀ part ∈ ps, part.Legible := by
  have hp : p.isAbsolute = true := isAbsolute_iff.2 (h ▸ List.mem_cons_self)
  obtain ⟨rest, hparts, hrest⟩ := parts_of_isAbsolute hp
  obtain ⟨-, rfl⟩ := List.cons.inj (h.symm.trans hparts)
  exact hrest

namespace Disk

theorem parts_pathOf {l : Location} (h : ∀ n ∈ l, (Part.name n).Legible) :
    (pathOf l).parts = .root :: l.map .name := by
  refine Path.parts_ofParts_root fun part hpart => ?_
  obtain ⟨n, hn, rfl⟩ := List.mem_map.1 hpart
  exact h n hn

theorem legible_of_along {d : Disk} {start l : Location} {segs : List (List Char)}
    (hstart : ∀ n ∈ start, (Part.name n).Legible) (hsegs : ∀ s ∈ segs, '/' ∉ s)
    (h : d.along start segs = .found l) : ∀ n ∈ l, (Part.name n).Legible := by
  induction segs using List.reverseRecOn generalizing l with
  | nil =>
    cases h
    exact hstart
  | append_singleton segs s ih =>
    rw [along_concat] at h
    obtain ⟨before, hbefore, -, rfl⟩ := follow_eq_found h
    rw [List.forall_mem_append] at hsegs
    have hnames := ih hsegs.1 hbefore
    unfold onward
    split
    · exact hnames
    · exact hnames
    · exact fun n hn => hnames n (List.mem_of_mem_dropLast hn)
    · next hnil hdot hup =>
      rw [List.forall_mem_append]
      refine ⟨hnames, fun n hn => ?_⟩
      obtain rfl := List.mem_singleton.1 hn
      refine Part.legible_of_ofSegment? (hsegs.2 s List.mem_cons_self) ?_
      unfold Part.ofSegment?
      split
      · exact absurd rfl hnil
      · exact absurd rfl hdot
      · exact absurd rfl hup
      · rfl

end Disk

namespace ProjectRoot

/-- A root whose path leads from the root of the disk down along names. -/
def Canonical (root : ProjectRoot) : Prop :=
  ∃ names : List String, root.path.parts = .root :: names.map .name

theorem Canonical.of_mem_ancestors {root : ProjectRoot} (h : root.Canonical) {dir : Path}
    (hdir : dir ∈ ancestors root.path) {w : Option Workspace} :
    (⟨dir, w⟩ : ProjectRoot).Canonical := by
  obtain ⟨names, hnames⟩ := h
  obtain ⟨k, -, rfl⟩ := List.mem_map.1 (List.mem_reverse.1 hdir)
  have hlegible := Path.legible_of_parts hnames
  refine ⟨names.take k, ?_⟩
  show (Path.ofParts (root.path.parts.take (k + 1))).parts = _
  rw [hnames, List.take_succ_cons, ← List.map_take]
  exact Path.parts_ofParts_root fun part hpart =>
    hlegible part ((List.take_subset k _) (by rwa [List.map_take] at hpart))

section Disk

variable {d : Disk} (hd : ∀ n ∈ d.workingDirectory, (Part.name n).Legible) {root : ProjectRoot}
include hd

theorem canonical_ofPath {p : Path} (h : ofPath d p = .ok root) : root.Canonical := by
  unfold ofPath Disk.canonical? at h
  cases hfind : d.find p with
  | found l =>
    rw [hfind] at h
    cases h
    refine ⟨l, Disk.parts_pathOf ?_⟩
    have htext : p.text ≠ "" := Disk.text_ne_empty_of_find (d := d) (by simp [hfind])
    rw [Disk.find_eq_along htext] at hfind
    refine Disk.legible_of_along ?_ (fun s => slash_not_mem_of_mem_splitSlash) hfind
    unfold Disk.startOf
    split
    · simp
    · exact hd
  | free l =>
    rw [hfind] at h
    cases h
  | none reason =>
    rw [hfind] at h
    cases h

theorem canonical_discover {start : Path} (h : discover d start = .ok root) : root.Canonical := by
  unfold discover at h
  cases hroot : ofPath d start with
  | error e =>
    rw [hroot] at h
    cases h
  | ok found =>
    have hfound : found.Canonical := canonical_ofPath hd hroot
    rw [hroot] at h
    obtain rfl := Except.ok.inj h
    cases hmarked : (ancestors found.path).findSome? fun dir =>
        (Workspace.detect d dir).map fun w => (⟨dir, some w⟩ : ProjectRoot) with
    | none => exact hfound
    | some marked =>
      obtain ⟨dir, hdir, hdetect⟩ := List.exists_of_findSome?_eq_some hmarked
      obtain ⟨w, -, rfl⟩ := Option.map_eq_some_iff.1 hdetect
      exact hfound.of_mem_ancestors hdir

end Disk

end ProjectRoot

/-! ## Paths below the root -/

namespace Climb

theorem ofParts_names (names : List String) :
    ofParts (names.map .name) = ⟨0, names.reverse⟩ := by
  induction names using List.reverseRecOn with
  | nil => rfl
  | append_singleton names n ih =>
    rw [List.map_append, List.map_singleton, ofParts_concat, ih, List.reverse_concat]
    rfl

theorem ofParts_filter (ps : List Part) : ofParts (ps.filter (· != .here)) = ofParts ps := by
  induction ps using List.reverseRecOn with
  | nil => rfl
  | append_singleton ps part ih =>
    rw [List.filter_append, ofParts_concat]
    by_cases hpart : part = .here
    · subst hpart
      rw [List.filter_cons_of_neg (by simp), List.filter_nil, List.append_nil, ih]
      rfl
    · rw [List.filter_cons_of_pos (by simpa using hpart), List.filter_nil, ofParts_concat, ih]

theorem ofParts_append {ps qs : List Part} (h : (ofParts qs).height = 0) :
    ofParts (ps ++ qs) =
      ⟨(ofParts ps).height, (ofParts qs).names ++ (ofParts ps).names⟩ := by
  induction qs using List.reverseRecOn with
  | nil => simp [ofParts]
  | append_singleton qs part ih =>
    rw [ofParts_concat] at h
    rw [← List.append_assoc, ofParts_concat, ofParts_concat]
    have hqs : (ofParts qs).height = 0 := by
      have hstep := (ofParts qs).height_step part
      omega
    rw [ih hqs]
    generalize ofParts qs = c at h hqs
    obtain ⟨height, names⟩ := c
    cases part with
    | root | here | name => rfl
    | up =>
      cases names with
      | nil => simp [step] at h
      | cons => rfl

end Climb

namespace Path

theorem ofParts_parts_normalize (p : Path) : ofParts p.normalize.parts = p.normalize := by
  rw [normalize, p.resolved_parts.parts_ofParts_reverse]

theorem height_eq_zero {p : Path} (h : p.ClimbsAtMost 0) : (Climb.ofParts p.parts).height = 0 :=
  Nat.le_zero.1 (Climb.height_le_iff.2 h)

end Path

namespace ProjectRoot

section Canonical

variable {root : ProjectRoot} (hroot : root.Canonical) {p : Path}
include hroot

/-- What is left of a path below the root comes after the root. -/
theorem parts_normalize_absolute (hp : p.isAbsolute = false) (hclimb : p.ClimbsAtMost 0) :
    (root.absolute p).normalize.parts = root.path.parts ++ p.normalize.parts := by
  obtain ⟨names, hnames⟩ := hroot
  have htext : root.path.text ≠ "" := fun h => by simp [Path.parts, h, splitSlash] at hnames
  have hheight := Path.height_eq_zero hclimb
  have hparts : (root.absolute p).parts =
      .root :: (names.map .name ++ p.parts.filter (· != .here)) := by
    rw [absolute, Path.parts_join htext hp, hnames, List.cons_append]
  have hclimbs : Climb.ofParts (root.absolute p).parts =
      ⟨0, (Climb.ofParts p.parts).names ++ names.reverse⟩ := by
    calc Climb.ofParts (root.absolute p).parts
        = Climb.ofParts (names.map .name ++ p.parts.filter (· != .here)) := by
          rw [hparts]
          rfl
      _ = ⟨0, (Climb.ofParts p.parts).names ++ names.reverse⟩ := by
          rw [Climb.ofParts_append (by rwa [Climb.ofParts_filter]), Climb.ofParts_filter,
            Climb.ofParts_names]
  have habsolute : (root.absolute p).isAbsolute = true := by
    rw [Path.isAbsolute_iff, hparts]
    exact List.mem_cons_self
  rw [Path.parts_normalize, Path.parts_normalize, hclimbs, habsolute, hheight, hp, hnames]
  simp

/-- A path that never leads above where it starts has the key of where it lies. -/
theorem relative_absolute (hp : p.isAbsolute = false) (hclimb : p.ClimbsAtMost 0) :
    root.relative (root.absolute p) = root.relative p := by
  have hparts := parts_normalize_absolute hroot hp hclimb
  have habsolute : (root.absolute p).normalize.isAbsolute = true := by
    obtain ⟨names, hnames⟩ := hroot
    rw [Path.isAbsolute_iff, hparts, hnames]
    simp
  have hbelow : (root.absolute p).normalize.below? root.path = some p.normalize := by
    rw [Path.below?, Path.startsWith, hparts, List.drop_left, Path.ofParts_parts_normalize]
    simp
  simp only [relative, habsolute, hbelow, p.isAbsolute_normalize, hp]
  rfl

end Canonical

/-- A path that lies below the root, as seen from there. -/
def Holds (root : ProjectRoot) (p : Path) : Prop :=
  (root.relative p).isAbsolute = false ∧ (root.relative p).startsWith ⟨".."⟩ = false

theorem Holds.up_not_mem {root : ProjectRoot} {p : Path} (h : root.Holds p) :
    .up ∉ (root.relative p).parts := by
  obtain ⟨habsolute, hup⟩ := h
  obtain ⟨out, hout, hp, -⟩ := root.relative_eq p
  have hparts : (root.relative p).parts = out.reverse := by rw [hp, hout.parts_ofParts_reverse]
  have hroot : .root ∉ (root.relative p).parts := Path.root_not_mem_parts habsolute
  have hfirst : (root.relative p).parts.head? ≠ some .up := by
    intro hhead
    obtain ⟨ps, hps⟩ := List.head?_eq_some_iff.1 hhead
    have hdots : (⟨".."⟩ : Path).parts = [.up] := by decide
    rw [Path.startsWith, hdots, hps] at hup
    simp at hup
  obtain ⟨names, base, rfl, hbase, hnames⟩ := hout
  rw [hparts] at hroot hfirst ⊢
  simp only [List.mem_cons, List.not_mem_nil, or_false] at hbase
  rcases hbase with rfl | rfl | rfl | rfl
  · exact fun hmem => (hnames _ (by simpa using hmem)).2 rfl
  · simp at hroot
  · simp at hfirst
  · simp at hroot

theorem Holds.climbsAtMost {root : ProjectRoot} {p : Path} (h : root.Holds p) :
    (root.relative p).ClimbsAtMost 0 := by
  intro before hbefore
  have hnot : .up ∉ before := fun hmem =>
    h.up_not_mem (((List.mem_inits _ _).1 hbefore).subset hmem)
  rw [List.count_eq_zero_of_not_mem hnot]
  exact Nat.zero_le _

theorem Holds.relative_absolute {root : ProjectRoot} (hroot : root.Canonical) {p : Path}
    (h : root.Holds p) : root.relative (root.absolute (root.relative p)) = root.relative p := by
  rw [ProjectRoot.relative_absolute hroot h.1 h.climbsAtMost, relative_relative]

end ProjectRoot

/-! ## Where keys are used -/

/-- What a notice becomes depends only on how its paths are seen from the root. -/
theorem FileEvent.changes_eq_of_relative {f : PathFilter} {kind : EventKind}
    {paths paths' : List Path} (h : paths.map f.root.relative = paths'.map f.root.relative) :
    (⟨kind, paths⟩ : FileEvent).changes f = (⟨kind, paths'⟩ : FileEvent).changes f := by
  -- For each path by itself only its key matters.
  have heach : ∀ paths : List Path,
      ((paths.filter f.isRelevant).filterMap fun p => changeOf? kind (f.root.relative p)) =
        ((paths.map f.root.relative).filter f.isRelevant).filterMap (changeOf? kind) := by
    intro paths
    have hfilter : paths.filter f.isRelevant =
        paths.filter (f.isRelevant ∘ f.root.relative) :=
      List.filter_congr fun p _ => by rw [Function.comp_apply, f.isRelevant_relative]
    rw [List.filter_map, List.filterMap_map, hfilter]
    rfl
  have hlength : paths.length = paths'.length := by simpa using congrArg List.length h
  unfold changes
  dsimp only
  split
  · next source target =>
    obtain ⟨source', target', rfl⟩ := List.length_eq_two.1 hlength.symm
    simp only [List.map_cons, List.map_nil, List.cons.injEq, and_true] at h
    rw [h.1, h.2]
  · next hkind =>
    split
    · next source target =>
      obtain ⟨source', target', rfl⟩ := List.length_eq_two.1 hlength
      exact absurd rfl (hkind _ _ rfl)
    · rw [heach, heach, h]

theorem Project.normalizeChange_eq_self {root : ProjectRoot} {c : Change}
    (h : c.Within fun p => root.relative p = p) : Project.normalizeChange root c = c := by
  obtain ⟨hpath, hsource⟩ := h
  obtain ⟨path, kind⟩ := c
  cases kind with
  | renamed source =>
    simp only [Project.normalizeChange, hpath, hsource source rfl]
    rfl
  | created | modified | deleted => simp only [Project.normalizeChange, hpath]

namespace ProjectRoot

/-- **Keys are stable.** Seeing a path from the root twice is seeing it once, and a key below the
root is the key of where it lies. So the path, its key and where the key lies come to the same
changes in the watcher, to the same change in a batch and to the same answer on the command line,
and a change that the watcher has recorded stays as it is in a batch. -/
theorem key_stable {root : ProjectRoot} (hroot : root.Canonical) (p : Path) :
    root.relative (root.relative p) = root.relative p ∧
    (p.isAbsolute = false → p.ClimbsAtMost 0 →
      root.relative (root.absolute p) = root.relative p) ∧
    (root.Holds p →
      root.relative (root.absolute (root.relative p)) = root.relative p ∧
      ∀ q ∈ [p, root.relative p, root.absolute (root.relative p)],
        (∀ (f : PathFilter) kind before after, f.root = root →
          (⟨kind, before ++ q :: after⟩ : FileEvent).changes f =
            (⟨kind, before ++ p :: after⟩ : FileEvent).changes f) ∧
        (∀ kind, Project.normalizeChange root ⟨q, kind⟩ = Project.normalizeChange root ⟨p, kind⟩) ∧
        (∀ target, Project.normalizeChange root (.renamed q target) =
          Project.normalizeChange root (.renamed p target)) ∧
        ∀ config s, Question.answer root config s (.file q) =
          Question.answer root config s (.file p)) ∧
    ∀ (f : PathFilter) (e : FileEvent), f.root = root →
      ∀ c ∈ e.changes f, Project.normalizeChange root c = c := by
  have hidem := root.relative_relative p
  refine ⟨hidem, relative_absolute hroot, fun hp => ⟨hp.relative_absolute hroot, fun q hq => ?_⟩,
    fun f e hf c hc => ?_⟩
  · have hkey : root.relative q = root.relative p := by
      simp only [List.mem_cons, List.not_mem_nil, or_false] at hq
      rcases hq with rfl | rfl | rfl
      · rfl
      · exact hidem
      · exact hp.relative_absolute hroot
    refine ⟨fun f kind before after hf => FileEvent.changes_eq_of_relative ?_, fun kind => ?_,
      fun target => ?_, fun config s => ?_⟩
    · subst hf
      simp [hkey]
    · cases kind <;> simp only [Project.normalizeChange, hkey]
    · simp only [Project.normalizeChange, Change.renamed, hkey]
    · simp only [Question.answer, hkey]
  · subst hf
    obtain ⟨hpath, hsource⟩ := f.within_changes e hc
    exact Project.normalizeChange_eq_self ⟨hpath.2, fun source hs => (hsource source hs).2⟩

/-- A path with a detour, below a root that is two directories down. -/
theorem key_stable_detour :
    let root : ProjectRoot := { path := ⟨"/r/s"⟩ }
    let p : Path := ⟨"src/./x/../a.cs"⟩
    (root.Canonical ∧ root.Holds p) ∧ root.relative p = ⟨"src/a.cs"⟩ ∧
      root.relative (root.absolute (root.relative p)) = root.relative p := by
  intro root p
  have hroot : root.Canonical := ⟨["r", "s"], by decide +kernel⟩
  have hp : root.Holds p := by constructor <;> decide +kernel
  exact ⟨⟨hroot, hp⟩, by decide +kernel, ((key_stable hroot p).2.2.1 hp).1⟩

end ProjectRoot

end CodeGraph

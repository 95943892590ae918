import CodeGraph.Proofs.Path
import Mathlib.Data.List.Infix

/-!
# Where a path leads by its parts

Part by part a path leads to a location, without a look at a disk. The text that is left once `.`
and `..` are resolved leads to the same location if the path is absolute or leads at most one
directory above where it starts. Further up, every second `..` at the front takes the one before it
away.

* `Path.parts_join`: the parts of joined paths.
* `Location.descend`, `Path.locate`: where parts lead.
* `Climb`, `Climb.foldl_descend`, `Climb.foldl_resolvePart`: how far parts lead up, and down again.
* `Path.ClimbsAtMost`, `Climb.height_le_iff`: the same by counting `..` and names.
* **`Path.normalize_keeps_location_iff`**: when resolving keeps the location.
-/

namespace CodeGraph

/-! ## Joined paths -/

theorem eq_nil_of_splitSlash {cs : List Char} (h : splitSlash cs = [[]]) : cs = [] := by
  cases cs with
  | nil => rfl
  | cons c cs =>
    obtain ⟨s, segments, hs⟩ := List.exists_cons_of_ne_nil (splitSlash_ne_nil cs)
    by_cases hc : c = '/'
    · subst hc
      rw [splitSlash, hs] at h
      simp at h
    · rw [splitSlash_cons hc hs] at h
      simp at h

namespace Path

open CodeGraph.Part

/-- The parts that the first segment of a path stands for, if the path is not empty. -/
def firstParts : List Char → List Part
  | [] => [.root]
  | ['.'] => [.here]
  | s => (ofSegment? s).toList

theorem parts_of_splitSlash {p : Path} (hp : p.text ≠ "") {first : List Char}
    {rest : List (List Char)} (h : splitSlash p.text.toList = first :: rest) :
    p.parts = firstParts first ++ rest.filterMap ofSegment? := by
  unfold parts
  rw [h]
  split
  · next heq => cases heq
  · next heq =>
    rw [heq] at h
    exact absurd (eq_nil_of_splitSlash h) (by simpa using hp)
  · next heq =>
    cases heq
    rfl
  · next heq =>
    cases heq
    rfl
  · next hslash hdot =>
    have hfirst : firstParts first = (ofSegment? first).toList := by
      unfold firstParts
      split
      · exact (hslash rest rfl).elim
      · exact (hdot rest rfl).elim
      · rfl
    rw [hfirst, List.filterMap_cons]
    cases ofSegment? first <;> rfl

theorem filterMap_splitSlash {p : Path} (hp : p.isAbsolute = false) :
    (splitSlash p.text.toList).filterMap ofSegment? = p.parts.filter (· != .here) := by
  have hlegible : ∀ segments : List (List Char),
      (segments.filterMap ofSegment?).filter (· != .here) = segments.filterMap ofSegment? := by
    intro segments
    refine List.filter_eq_self.2 fun part hpart => ?_
    obtain ⟨s, -, hs⟩ := List.mem_filterMap.1 hpart
    unfold ofSegment? at hs
    split at hs <;> simp at hs <;> subst hs <;> rfl
  by_cases ht : p.text = ""
  · simp [parts, ht, splitSlash, ofSegment?]
  obtain ⟨first, rest, hsplit⟩ := List.exists_cons_of_ne_nil (splitSlash_ne_nil p.text.toList)
  have hparts := parts_of_splitSlash ht hsplit
  have hfirst : first ≠ [] := by
    rintro rfl
    have hroot : .root ∈ p.parts := by
      rw [hparts]
      exact List.mem_cons_self
    rw [isAbsolute_iff.2 hroot] at hp
    cases hp
  rw [hsplit, hparts, List.filter_append, hlegible, ← List.singleton_append,
    List.filterMap_append]
  congr 1
  rw [← hlegible [first]]
  unfold firstParts
  split
  · exact absurd rfl hfirst
  · rfl
  · rw [List.filterMap_cons]
    cases ofSegment? first <;> rfl

/-- A relative path that is written after another one adds its parts, but for the current
directory. -/
theorem parts_join {p q : Path} (hp : p.text ≠ "") (hq : q.isAbsolute = false) :
    (p.join q).parts = p.parts ++ q.parts.filter (· != .here) := by
  have hempty : ¬ p.text.isEmpty = true := by simpa using hp
  -- Either way the segments of the second path come after those of the first.
  have hparts : ∀ {cs : List Char} {r : Path}, (p.text.toList = cs ∨ p.text.toList = cs ++ ['/']) →
      r.text.toList = cs ++ '/' :: q.text.toList →
      r.parts = p.parts ++ q.parts.filter (· != .here) := by
    intro cs r hcs hr
    obtain ⟨first, rest, hsplit⟩ := List.exists_cons_of_ne_nil (splitSlash_ne_nil cs)
    have hrsplit : splitSlash r.text.toList = first :: (rest ++ splitSlash q.text.toList) := by
      rw [hr, splitSlash_append_slash, hsplit, List.cons_append]
    have hr0 : r.text ≠ "" := fun h => by simp [h] at hr
    rw [parts_of_splitSlash hr0 hrsplit, List.filterMap_append, filterMap_splitSlash hq,
      ← List.append_assoc]
    congr 1
    rcases hcs with hcs | hcs
    · exact (parts_of_splitSlash hp (hcs ▸ hsplit)).symm
    · have hpsplit : splitSlash p.text.toList = first :: (rest ++ [[]]) := by
        rw [hcs, splitSlash_append_slash, hsplit]
        rfl
      rw [parts_of_splitSlash hp hpsplit, List.filterMap_append]
      simp [ofSegment?]
  unfold join
  rw [if_neg (by simp [hq]), if_neg hempty]
  split
  · next hlast =>
    have hcs : p.text.toList = p.text.toList.dropLast ++ ['/'] :=
      (List.dropLast_append_getLast? '/' (by simpa using hlast)).symm
    refine hparts (.inr hcs) ?_
    rw [String.toList_append, hcs]
    simp
  · refine hparts (.inl rfl) ?_
    simp

end Path

/-! ## Where parts lead -/

/-- Whether a part is a name. -/
def Part.isName : Part → Bool
  | .name _ => true
  | _ => false

/-- Where a part leads from a location: `.` stays there, `..` leads one directory up and stays at
the root of the disk, a name leads down, and the root leads to the root. -/
def Location.descend (l : Location) : Part → Location
  | .root => []
  | .here => l
  | .up => l.dropLast
  | .name n => l ++ [n]

theorem foldl_descend_names (l names : List String) :
    (names.map Part.name).foldl Location.descend l = l ++ names := by
  induction names generalizing l with
  | nil => exact (List.append_nil l).symm
  | cons n names ih =>
    rw [List.map_cons, List.foldl_cons, ih, Location.descend, List.append_assoc]
    rfl

theorem foldl_descend_filter (l : Location) (ps : List Part) :
    (ps.filter (· != .here)).foldl Location.descend l = ps.foldl Location.descend l := by
  induction ps generalizing l with
  | nil => rfl
  | cons part ps ih =>
    by_cases hpart : part = .here
    · subst hpart
      exact ih l
    · rw [List.filter_cons_of_pos (by simpa using hpart), List.foldl_cons, ih, List.foldl_cons]

/-- How parts lead away from where they start: a number of directories up, and then down along
names, of which the last stands first. -/
structure Climb where
  height : Nat := 0
  names : List String := []

namespace Climb

/-- One part further: `..` takes the last name back, or leads up if there is none. -/
def step (c : Climb) : Part → Climb
  | .up =>
    match c.names with
    | [] => { c with height := c.height + 1 }
    | _ :: names => { c with names }
  | .name n => { c with names := n :: c.names }
  | _ => c

/-- The climb of parts in order. -/
def ofParts (ps : List Part) : Climb := ps.foldl step {}

theorem ofParts_concat (ps : List Part) (part : Part) :
    ofParts (ps ++ [part]) = (ofParts ps).step part := by
  simp [ofParts]

theorem foldl_descend {ps : List Part} (hps : .root ∉ ps) (l : Location) :
    ps.foldl Location.descend l =
      l.take (l.length - (ofParts ps).height) ++ (ofParts ps).names.reverse := by
  induction ps using List.reverseRecOn with
  | nil => simp [ofParts]
  | append_singleton ps part ih =>
    rw [List.mem_append, not_or] at hps
    rw [List.foldl_append, ih hps.1, ofParts_concat]
    generalize ofParts ps = c
    obtain ⟨height, names⟩ := c
    cases part with
    | root => exact absurd List.mem_cons_self hps.2
    | here => rfl
    | name n => simp [Location.descend, step]
    | up =>
      cases names with
      | cons n names => simp [Location.descend, step]
      | nil =>
        have htake : (l.take (l.length - height)).dropLast = l.take (l.length - (height + 1)) := by
          rw [List.dropLast_eq_take, List.take_take, List.length_take]
          congr 1
          omega
        simpa [Location.descend, step] using htake

/-- Resolving parts after a start keeps their names, and of the `..` above the start one if their
number is odd. -/
theorem foldl_resolvePart {ps : List Part} (hps : ∀ part ∈ ps, part.Legible) {base : List Part}
    (hbase : base ∈ [[], [.root]]) :
    ps.foldl Path.resolvePart base =
      (ofParts ps).names.map .name ++ (if (ofParts ps).height % 2 = 1 then [.up] else []) ++
        base := by
  induction ps using List.reverseRecOn with
  | nil => simp [ofParts]
  | append_singleton ps part ih =>
    rw [List.forall_mem_append] at hps
    have hpart := hps.2 part List.mem_cons_self
    rw [List.foldl_append, ih hps.1, ofParts_concat]
    generalize ofParts ps = c
    obtain ⟨height, names⟩ := c
    cases part with
    | root => exact absurd hpart Part.not_legible_root
    | here => exact absurd hpart Part.not_legible_here
    | name n => rfl
    | up =>
      cases names with
      | cons n names => rfl
      | nil =>
        -- At the bottom every second `..` takes the one before it away.
        simp only [List.mem_cons, List.not_mem_nil, or_false] at hbase
        rcases Nat.mod_two_eq_zero_or_one height with hheight | hheight
        · have hnext : (height + 1) % 2 = 1 := by omega
          rcases hbase with rfl | rfl <;> simp [step, hheight, hnext, Path.resolvePart]
        · have hnext : (height + 1) % 2 ≠ 1 := by omega
          rcases hbase with rfl | rfl <;> simp [step, hheight, hnext, Path.resolvePart]

theorem length_names (ps : List Part) :
    (ofParts ps).names.length + ps.count .up = (ofParts ps).height + ps.countP Part.isName := by
  induction ps using List.reverseRecOn with
  | nil => rfl
  | append_singleton ps part ih =>
    rw [ofParts_concat, List.count_append, List.countP_append]
    generalize ofParts ps = c at ih
    obtain ⟨height, names⟩ := c
    cases part <;> cases names <;> simp_all [step, Part.isName] <;> omega

theorem height_step (c : Climb) (part : Part) :
    (c.step part).height = c.height ∨
      (c.step part).height = c.height + 1 ∧ (c.step part).names = [] := by
  obtain ⟨height, names⟩ := c
  cases part with
  | root | here | name => exact .inl rfl
  | up =>
    cases names with
    | nil => exact .inr ⟨rfl, rfl⟩
    | cons => exact .inl rfl

theorem height_le_iff {ps : List Part} {m : Nat} :
    (ofParts ps).height ≤ m ↔
      ∀ before ∈ ps.inits, before.count .up ≤ before.countP Part.isName + m := by
  simp only [List.mem_inits]
  induction ps using List.reverseRecOn with
  | nil => simp [ofParts]
  | append_singleton ps part ih =>
    have hlength := length_names (ps ++ [part])
    have hstep := (ofParts ps).height_step part
    rw [← ofParts_concat] at hstep
    constructor
    · intro h before hbefore
      rcases List.prefix_concat_iff.1 hbefore with rfl | hbefore
      · omega
      · exact ih.1 (by omega) before hbefore
    · intro h
      have hps := ih.2 fun before hbefore => h before (hbefore.trans (List.prefix_append _ _))
      rcases hstep with hstep | ⟨-, hnames⟩
      · omega
      · -- All names are taken back, so the height is what `..` outnumber them by.
        have hall := h _ List.prefix_rfl
        rw [hnames, List.length_nil] at hlength
        omega

end Climb

namespace Path

open CodeGraph.Part

/-! ## Where resolved paths lead -/

/-- Where a path leads from the root of the disk, part by part. -/
def locate (p : Path) : Location := p.parts.foldl Location.descend []

/-- Whether a path leads at most some directories above where it starts: in no beginning of it does
`..` outnumber the names by more. -/
def ClimbsAtMost (p : Path) (m : Nat) : Prop :=
  ∀ before ∈ p.parts.inits, before.count .up ≤ before.countP Part.isName + m

instance (p : Path) (m : Nat) : Decidable (p.ClimbsAtMost m) :=
  inferInstanceAs (Decidable (∀ before ∈ p.parts.inits, _))

theorem root_not_mem_parts {p : Path} (hp : p.isAbsolute = false) : .root ∉ p.parts := by
  rw [← isAbsolute_iff, hp]
  exact Bool.false_ne_true

theorem parts_of_isAbsolute {p : Path} (hp : p.isAbsolute = true) :
    ∃ rest, p.parts = .root :: rest ∧ ∀ part ∈ rest, part.Legible := by
  obtain ⟨first, rest, hparts, hfirst, hrest⟩ := p.parts_eq
  have hroot : .root ∉ rest := fun hmem => not_legible_root (hrest _ hmem)
  rw [isAbsolute_iff, hparts, List.mem_append, or_iff_left hroot] at hp
  simp only [List.mem_cons, List.not_mem_nil, or_false] at hfirst
  rcases hfirst with rfl | rfl | rfl
  · cases hp
  · exact ⟨rest, hparts, hrest⟩
  · simp at hp

/-- A path and its text with `.` and `..` resolved make the same climb, but of the directories above
the start every second one is lost. -/
theorem parts_normalize (p : Path) :
    p.normalize.parts = (if p.isAbsolute then [.root] else []) ++
      (if (Climb.ofParts p.parts).height % 2 = 1 then [.up] else []) ++
      (Climb.ofParts p.parts).names.reverse.map .name := by
  have h := p.resolved_parts
  rw [normalize, h.parts_ofParts_reverse]
  obtain ⟨first, rest, hparts, hfirst, hrest⟩ := p.parts_eq
  have habsolute : p.isAbsolute = true ↔ .root ∈ first := by
    have hroot : .root ∉ rest := fun hmem => not_legible_root (hrest _ hmem)
    rw [isAbsolute_iff, hparts, List.mem_append, or_iff_left hroot]
  simp only [List.mem_cons, List.not_mem_nil, or_false] at hfirst
  -- The first part adds nothing to the climb.
  have hclimb : Climb.ofParts p.parts = Climb.ofParts rest := by
    rw [hparts]
    rcases hfirst with rfl | rfl | rfl <;> rfl
  have hresolved : p.parts.foldl resolvePart [] =
      rest.foldl resolvePart (if p.isAbsolute then [.root] else []) := by
    rw [hparts]
    rcases hfirst with rfl | rfl | rfl <;> simp_all [resolvePart]
  rw [hresolved, hclimb, Climb.foldl_resolvePart hrest (by split <;> simp)]
  split <;> split <;> simp

theorem isAbsolute_normalize (p : Path) : p.normalize.isAbsolute = p.isAbsolute := by
  rw [Bool.eq_iff_iff, isAbsolute_iff, parts_normalize]
  by_cases hp : p.isAbsolute = true
  · simp [hp]
  · rw [if_neg hp]
    split <;> simp [hp]

theorem foldl_descend_normalize {p : Path} (hp : p.isAbsolute = false) (l : Location) :
    p.normalize.parts.foldl Location.descend l =
      l.take (l.length - (Climb.ofParts p.parts).height % 2) ++
        (Climb.ofParts p.parts).names.reverse := by
  rw [parts_normalize, List.foldl_append, foldl_descend_names, hp]
  rcases Nat.mod_two_eq_zero_or_one (Climb.ofParts p.parts).height with h | h
  · simp [h]
  · simp [h, Location.descend, List.dropLast_eq_take]

/-- Above the root there is only the root, so an absolute path loses nothing. -/
theorem locate_normalize_of_isAbsolute {p : Path} (hp : p.isAbsolute = true) :
    p.normalize.locate = p.locate := by
  obtain ⟨rest, hparts, hrest⟩ := parts_of_isAbsolute hp
  have hroot : .root ∉ rest := fun hmem => not_legible_root (hrest _ hmem)
  have hclimb : Climb.ofParts p.parts = Climb.ofParts rest := by
    rw [hparts]
    rfl
  calc p.normalize.locate
      = (Climb.ofParts rest).names.reverse := by
        rw [locate, parts_normalize, List.foldl_append, foldl_descend_names, hclimb, if_pos hp]
        split <;> rfl
    _ = rest.foldl Location.descend [] := by
        rw [Climb.foldl_descend hroot]
        simp
    _ = p.locate := by
        rw [locate, hparts]
        rfl

theorem locate_join {b p : Path} {names : List String} (hb : b.parts = .root :: names.map .name)
    (hp : p.isAbsolute = false) : (b.join p).locate = p.parts.foldl Location.descend names := by
  have htext : b.text ≠ "" := by
    intro h
    simp [parts, h, splitSlash] at hb
  rw [locate, parts_join htext hp, hb, List.foldl_append, foldl_descend_filter, List.foldl_cons,
    foldl_descend_names]
  rfl

/-- **When resolving `.` and `..` by text keeps the location.** It does for an absolute path, and
for a relative one exactly if that leads at most one directory above where it starts. -/
theorem normalize_keeps_location_iff {b p : Path} {names : List String}
    (hb : b.parts = .root :: names.map .name) (hp : p.parts.count .up < names.length) :
    (b.join p.normalize).locate = (b.join p).locate ↔
      p.isAbsolute = true ∨ p.ClimbsAtMost 1 := by
  cases habsolute : p.isAbsolute with
  | true =>
    have hjoin : ∀ {q : Path}, q.isAbsolute = true → b.join q = q := fun hq => if_pos hq
    rw [hjoin habsolute, hjoin (p.isAbsolute_normalize.trans habsolute),
      locate_normalize_of_isAbsolute habsolute]
    simp
  | false =>
    have hheight : (Climb.ofParts p.parts).height ≤ p.parts.count .up :=
      Climb.height_le_iff.2 fun before hbefore => by
        have hcount := ((List.mem_inits _ _).1 hbefore).sublist.count_le (.up : Part)
        omega
    rw [locate_join hb habsolute, locate_join hb (p.isAbsolute_normalize.trans habsolute),
      foldl_descend_normalize habsolute, Climb.foldl_descend (root_not_mem_parts habsolute),
      ClimbsAtMost, ← Climb.height_le_iff, List.append_left_inj]
    simp only [Bool.false_eq_true, false_or]
    constructor
    · intro h
      have hlength := congrArg List.length h
      rw [List.length_take, List.length_take] at hlength
      omega
    · intro h
      congr 2
      omega

/-- A file two directories above a directory that lies deep enough. -/
theorem normalize_keeps_location_iff_sibling :
    ((⟨"/r/s/t"⟩ : Path).parts = .root :: ["r", "s", "t"].map .name ∧
      (⟨"../../a.cs"⟩ : Path).parts.count .up < ["r", "s", "t"].length) ∧
    (((⟨"/r/s/t"⟩ : Path).join (normalize ⟨"../../a.cs"⟩)).locate =
        ((⟨"/r/s/t"⟩ : Path).join ⟨"../../a.cs"⟩).locate ↔
      (⟨"../../a.cs"⟩ : Path).isAbsolute = true ∨ (⟨"../../a.cs"⟩ : Path).ClimbsAtMost 1) := by
  have hb : (⟨"/r/s/t"⟩ : Path).parts = .root :: ["r", "s", "t"].map .name := by decide
  have hp : (⟨"../../a.cs"⟩ : Path).parts.count .up < ["r", "s", "t"].length := by decide
  exact ⟨⟨hb, hp⟩, normalize_keeps_location_iff hb hp⟩

/-- Resolved, that path leads to a file of the directory itself. -/
theorem normalize_loses_location :
    ¬ ∀ (b p : Path) (names : List String), b.parts = .root :: names.map .name →
      p.parts.count .up < names.length →
      (b.join p.normalize).locate = (b.join p).locate := by
  intro hall
  have hkept := hall ⟨"/r/s/t"⟩ ⟨"../../a.cs"⟩ ["r", "s", "t"] (by decide) (by decide)
  revert hkept
  decide

end Path

end CodeGraph

import CodeGraph.Disk
import Mathlib.Data.List.Induction

/-!
# Where paths lead while a disk changes

A path leads through directories only. So it leads to the same place on every disk that has the same
directories and more, whatever files come and go.

* `Disk.along`, `Disk.Extends`, `Disk.along_found`, `Disk.along_free`: following segments on a disk
  and on one that extends it.
* `Disk.makeDirs_stable`: a directory that was made stays made.
* `Path.EndsIn`, `Disk.write_eq_ok`: writing a file of a directory.
* **`Disk.rename_eq_ok`**: a file that was renamed can be read at its new path.
-/

namespace CodeGraph

/-! ## Segments -/

theorem splitSlash_ne_nil (cs : List Char) : splitSlash cs ≠ [] := by
  unfold splitSlash
  split
  · simp
  · simp
  · split <;> simp

theorem splitSlash_cons {c : Char} (hc : c ≠ '/') {cs s : List Char} {segs : List (List Char)}
    (h : splitSlash cs = s :: segs) : splitSlash (c :: cs) = (c :: s) :: segs := by
  rw [splitSlash, h]
  simpa using hc

theorem splitSlash_append_slash (cs ds : List Char) :
    splitSlash (cs ++ '/' :: ds) = splitSlash cs ++ splitSlash ds := by
  induction cs with
  | nil => rfl
  | cons c cs ih =>
    by_cases hc : c = '/'
    · subst hc
      rw [List.cons_append, splitSlash, splitSlash, ih, List.cons_append]
    · obtain ⟨s, segs, hs⟩ := List.exists_cons_of_ne_nil (splitSlash_ne_nil cs)
      rw [hs, List.cons_append] at ih
      rw [List.cons_append, splitSlash_cons hc ih, splitSlash_cons hc hs, List.cons_append]

theorem splitSlash_of_not_mem {cs : List Char} (h : '/' ∉ cs) : splitSlash cs = [cs] := by
  induction cs with
  | nil => rfl
  | cons c cs ih =>
    rw [List.mem_cons, not_or] at h
    exact splitSlash_cons (Ne.symm h.1) (ih h.2)

theorem splitSlash_append {cs ds : List Char} (hd : '/' ∉ ds) {segs : List (List Char)}
    {last : List Char} (h : splitSlash cs = segs ++ [last]) :
    splitSlash (cs ++ ds) = segs ++ [last ++ ds] := by
  induction cs generalizing segs last with
  | nil =>
    obtain ⟨rfl, rfl⟩ : segs = [] ∧ last = [] := by
      simpa [splitSlash, List.append_eq_singleton_iff, eq_comm] using h
    exact splitSlash_of_not_mem hd
  | cons c cs ih =>
    obtain ⟨s, rest, hs⟩ := List.exists_cons_of_ne_nil (splitSlash_ne_nil cs)
    by_cases hc : c = '/'
    · subst hc
      rw [splitSlash] at h
      cases segs with
      | nil => exact absurd (List.cons.inj h).2 (splitSlash_ne_nil cs)
      | cons _ segs =>
        obtain ⟨rfl, hsegs⟩ := List.cons.inj h
        rw [List.cons_append, splitSlash, ih hsegs, List.cons_append]
    · rw [splitSlash_cons hc hs] at h
      cases segs with
      | nil =>
        obtain ⟨rfl, rfl⟩ := List.cons.inj h
        have hcs : splitSlash (cs ++ ds) = [] ++ [s ++ ds] := ih hs
        exact splitSlash_cons hc hcs
      | cons _ segs =>
        obtain ⟨rfl, rfl⟩ := List.cons.inj h
        have hcs : splitSlash (cs ++ ds) = s :: segs ++ [last ++ ds] := ih hs
        exact splitSlash_cons hc hcs

/-! ## Following segments -/

namespace Disk

/-- Where segments lead from a location. -/
def along (d : Disk) (start : Location) (segs : List (List Char)) : Place :=
  segs.foldl d.follow (.found start)

/-- Where a path starts. -/
def startOf (d : Disk) (p : Path) : Location := if p.isAbsolute then [] else d.workingDirectory

theorem find_eq_along {d : Disk} {p : Path} (h : p.text ≠ "") :
    d.find p = d.along (d.startOf p) (splitSlash p.text.toList) := by
  have hempty : ¬ p.text.isEmpty = true := by simpa using h
  exact if_neg hempty

theorem along_concat (d : Disk) (start : Location) (segs : List (List Char)) (s : List Char) :
    d.along start (segs ++ [s]) = d.follow (d.along start segs) s := by
  simp [along]

/-- The location that a segment names, as seen from a directory. -/
def onward (l : Location) : List Char → Location
  | [] => l
  | ['.'] => l
  | ['.', '.'] => l.dropLast
  | name => l ++ [String.ofList name]

/-- A segment that is a name. -/
def IsName (s : List Char) : Prop := s ≠ [] ∧ s ≠ ['.'] ∧ s ≠ ['.', '.']

theorem onward_name {s : List Char} (hs : IsName s) (l : Location) :
    onward l s = l ++ [String.ofList s] := by
  unfold onward
  split
  · exact absurd rfl hs.1
  · exact absurd rfl hs.2.1
  · exact absurd rfl hs.2.2
  · rfl

section Follow

variable {d : Disk} {place : Place} {l l' : Location} {s : List Char}

theorem follow_directory (hl : d.entryAt? l = some .directory)
    (hs : (d.entryAt? (onward l s)).isSome) : d.follow (.found l) s = .found (onward l s) := by
  simp only [follow, if_pos hl]
  revert hs
  unfold onward
  split <;> simp +contextual

theorem follow_found (l : Location) (s : List Char) :
    (∃ reason, d.follow (.found l) s = .none reason) ∨
      d.entryAt? l = some .directory ∧
        (d.follow (.found l) s = .found (onward l s) ∨
          d.follow (.found l) s = .free (onward l s)) := by
  by_cases hl : d.entryAt? l = some .directory
  · refine .inr ⟨hl, ?_⟩
    simp only [follow, if_pos hl]
    split
    · exact .inl rfl
    · exact .inl rfl
    · exact .inl rfl
    · rename_i h₁ h₂ h₃
      rw [onward_name ⟨h₁, h₂, h₃⟩]
      split
      · exact .inl rfl
      · exact .inr rfl
  · exact .inl ⟨_, if_neg hl⟩

theorem follow_eq_found (h : d.follow place s = .found l') :
    ∃ l, place = .found l ∧ d.entryAt? l = some .directory ∧ l' = onward l s := by
  cases place with
  | found l =>
    obtain ⟨reason, hf⟩ | ⟨hl, hf | hf⟩ := follow_found (d := d) l s
    · rw [hf] at h
      cases h
    · rw [hf] at h
      cases h
      exact ⟨l, rfl, hl, rfl⟩
    · rw [hf] at h
      cases h
  | free l => cases s <;> cases h
  | none reason => cases h

theorem follow_eq_free (h : d.follow place s = .free l') :
    (place = .free l' ∧ s = []) ∨
      ∃ l, place = .found l ∧ d.entryAt? l = some .directory ∧ l' = onward l s := by
  cases place with
  | found l =>
    obtain ⟨reason, hf⟩ | ⟨hl, hf | hf⟩ := follow_found (d := d) l s
    · rw [hf] at h
      cases h
    · rw [hf] at h
      cases h
    · rw [hf] at h
      cases h
      exact .inr ⟨l, rfl, hl, rfl⟩
  | free l =>
    cases s with
    | nil =>
      cases h
      exact .inl ⟨rfl, rfl⟩
    | cons => cases h
  | none reason => cases h

end Follow

/-! ## Disks with more directories -/

/-- Every directory of `d` is one of `d'`, and paths start at the same place. -/
structure Extends (d d' : Disk) : Prop where
  directory : ∀ {l}, d.entryAt? l = some .directory → d'.entryAt? l = some .directory
  workingDirectory : d'.workingDirectory = d.workingDirectory

theorem Extends.refl (d : Disk) : d.Extends d := ⟨id, rfl⟩

theorem Extends.trans {d d' d'' : Disk} (h : d.Extends d') (h' : d'.Extends d'') :
    d.Extends d'' :=
  ⟨fun hl => h'.directory (h.directory hl), h'.workingDirectory.trans h.workingDirectory⟩

theorem Extends.startOf {d d' : Disk} (h : d.Extends d') (p : Path) :
    d'.startOf p = d.startOf p := by
  unfold Disk.startOf
  rw [h.workingDirectory]

section Extends

variable {d d' : Disk} (h : d.Extends d') {start l : Location} {segs : List (List Char)}
include h

theorem along_found (hl : d.along start segs = .found l) (hs : (d'.entryAt? l).isSome) :
    d'.along start segs = .found l := by
  induction segs using List.reverseRecOn generalizing l with
  | nil => exact hl
  | append_singleton segs s ih =>
    rw [along_concat] at hl ⊢
    obtain ⟨l₁, hplace, hdir, rfl⟩ := follow_eq_found hl
    have hdir' := h.directory hdir
    rw [ih hplace (by rw [hdir']; rfl), follow_directory hdir' hs]

theorem along_free (hl : d.along start segs = .free l) (hs : d'.entryAt? l = some .directory) :
    d'.along start segs = .found l := by
  induction segs using List.reverseRecOn with
  | nil => cases hl
  | append_singleton segs s ih =>
    rw [along_concat] at hl ⊢
    obtain ⟨hplace, rfl⟩ | ⟨l₁, hplace, hdir, rfl⟩ := follow_eq_free hl
    · rw [ih hplace]
      exact follow_directory (s := []) hs (by simp [onward, hs])
    · have hdir' := h.directory hdir
      rw [along_found h hplace (by rw [hdir']; rfl), follow_directory hdir' (by rw [hs]; rfl)]

end Extends

theorem isDirectory_iff {d : Disk} {p : Path} :
    d.isDirectory p = true ↔ ∃ l, d.find p = .found l ∧ d.entryAt? l = some .directory := by
  unfold isDirectory entry?
  cases d.find p <;> simp

theorem exists?_of_read {d : Disk} {p : Path} {c : String} (h : d.read p = .ok c) :
    d.exists? p = true := by
  unfold read at h
  unfold exists?
  split at h
  · rename_i he
    rw [he]
    rfl
  · cases h
  · cases h

theorem text_ne_empty_of_find {d : Disk} {p : Path} (h : ∀ reason, d.find p ≠ .none reason) :
    p.text ≠ "" := by
  intro ht
  exact h .missing (by simp [find, ht])

theorem Extends.isDirectory {d d' : Disk} (h : d.Extends d') {p : Path}
    (hp : d.isDirectory p = true) : d'.isDirectory p = true := by
  obtain ⟨l, hfind, hl⟩ := isDirectory_iff.1 hp
  have htext : p.text ≠ "" := text_ne_empty_of_find (d := d) (by simp [hfind])
  have hl' := h.directory hl
  rw [find_eq_along htext] at hfind
  refine isDirectory_iff.2 ⟨l, ?_, hl'⟩
  rw [find_eq_along htext, h.startOf, along_found h hfind (by rw [hl']; rfl)]

/-! ## Making directories -/

/-- The disk with an entry at a location. -/
def put (d : Disk) (l : Location) (e : Entry) : Disk :=
  { d with entries := d.entries.insert l e }

theorem entryAt?_put {d : Disk} {l : Location} (hl : l ≠ []) (e : Entry) (l' : Location) :
    (d.put l e).entryAt? l' = if l' = l then some e else d.entryAt? l' := by
  unfold entryAt? put
  simp only [Std.ExtTreeMap.getElem?_insert, Std.LawfulEqCmp.compare_eq_iff_eq]
  by_cases hl' : l' = l
  · subst hl'
    simp [hl]
  · simp [hl', Ne.symm hl']

theorem extends_put {d : Disk} {l : Location} {e : Entry}
    (h : d.entryAt? l = some .directory → e = .directory) : d.Extends (d.put l e) := by
  refine ⟨fun {l'} hl' => ?_, rfl⟩
  by_cases hl : l = []
  · -- The root is a directory whatever the entries say.
    subst hl
    by_cases hr : l' = []
    · rw [hr]
      rfl
    · unfold entryAt? put at *
      simp_all [Std.ExtTreeMap.getElem?_insert, Ne.symm hr]
  · rw [entryAt?_put hl]
    split
    · subst_vars
      rw [h hl']
    · exact hl'

theorem makeDir_eq_ok {d d' : Disk} {p : Path} (h : d.makeDir p = .ok d') :
    d'.isDirectory p = true := by
  unfold makeDir at h
  split at h
  · rename_i l hfind
    cases h
    have he : d.Extends (d.put l .directory) := extends_put fun _ => rfl
    have hl : (d.put l .directory).entryAt? l = some .directory := by
      by_cases hnil : l = []
      · rw [hnil]
        rfl
      · rw [entryAt?_put hnil, if_pos rfl]
    have htext : p.text ≠ "" := text_ne_empty_of_find (d := d) (by simp [hfind])
    rw [find_eq_along htext] at hfind
    refine isDirectory_iff.2 ⟨l, ?_, hl⟩
    change (d.put l .directory).find p = _
    rw [find_eq_along htext, he.startOf, along_free he hfind hl]
  · cases h
  · cases h

theorem makeDirs_eq_ok {d d' : Disk} {p : Path} (h : d.makeDirs p = .ok d') :
    p.text = "" ∨ d'.isDirectory p = true := by
  unfold makeDirs makeDirsWithin at h
  split at h
  · exact .inl (by simpa using ‹p.text.isEmpty = true›)
  · right
    split at h
    · rename_i hmake
      cases h
      exact makeDir_eq_ok hmake
    · split at h
      · cases h
        assumption
      · cases h
    · split at h
      · cases h
      · split at h
        · cases h
        · split at h
          · rename_i hmake
            cases h
            exact makeDir_eq_ok hmake
          · split at h
            · cases h
              assumption
            · cases h

theorem makeDirs_of_isDirectory {d : Disk} {p : Path} (h : d.isDirectory p = true) :
    d.makeDirs p = .ok d := by
  obtain ⟨l, hfind, -⟩ := isDirectory_iff.1 h
  have hmake : d.makeDir p = .error .blocked := by rw [makeDir, hfind]
  rw [makeDirs, makeDirsWithin, hmake]
  simp [h]

/-- A directory that was made stays made: making it again does nothing. -/
theorem makeDirs_stable {d d₁ d' : Disk} {p : Path} (h : d.makeDirs p = .ok d₁)
    (he : d₁.Extends d') : d'.makeDirs p = .ok d' := by
  rcases makeDirs_eq_ok h with hp | hp
  · simp [makeDirs, makeDirsWithin, hp]
  · exact makeDirs_of_isDirectory (he.isDirectory hp)

end Disk

/-! ## Files of a directory -/

/-- A path whose last segment is a name. -/
structure Path.EndsIn (p : Path) (segs : List (List Char)) (name : List Char) : Prop where
  split : splitSlash p.text.toList = segs ++ [name]
  isName : Disk.IsName name

theorem Path.EndsIn.text_ne_empty {p : Path} {segs : List (List Char)} {name : List Char}
    (h : p.EndsIn segs name) : p.text ≠ "" := by
  intro ht
  have hsplit := h.split
  rw [ht] at hsplit
  have hname : name = [] := by simpa [splitSlash, eq_comm] using congrArg List.getLast? hsplit
  exact h.isName.1 hname

namespace Disk

/-- Segments lead from where a path starts to a directory. -/
structure Enters (d : Disk) (p : Path) (segs : List (List Char)) (l : Location) : Prop where
  along : d.along (d.startOf p) segs = .found l
  directory : d.entryAt? l = some .directory

theorem Enters.extends {d d' : Disk} {p : Path} {segs : List (List Char)} {l : Location}
    (h : d.Enters p segs l) (he : d.Extends d') : d'.Enters p segs l := by
  have hl := he.directory h.directory
  exact ⟨by rw [he.startOf, along_found he h.along (by rw [hl]; rfl)], hl⟩

/-- The location of a file in a directory. -/
def fileIn (l : Location) (name : List Char) : Location := l ++ [String.ofList name]

theorem fileIn_ne_nil (l : Location) (name : List Char) : fileIn l name ≠ [] := by simp [fileIn]

theorem fileIn_ne {name name' : List Char} (h : name ≠ name') (l : Location) :
    fileIn l name ≠ fileIn l name' := by
  intro he
  have hof : String.ofList name = String.ofList name' := by simpa [fileIn] using he
  exact h (by simpa using congrArg String.toList hof)

section File

variable {d d' : Disk} {p : Path} {segs : List (List Char)} {name : List Char} {l : Location}
  (hp : p.EndsIn segs name)
include hp

theorem find_file : d.find p = d.follow (d.along (d.startOf p) segs) name := by
  rw [find_eq_along hp.text_ne_empty, hp.split, along_concat]

theorem find_of_enters (h : d.Enters p segs l) {e : Entry}
    (he : d.entryAt? (fileIn l name) = some e) : d.find p = .found (fileIn l name) := by
  have honward := onward_name hp.isName l
  rw [find_file hp, h.along, follow_directory h.directory (by rw [honward]; exact he ▸ rfl),
    honward]
  rfl

theorem entry?_of_enters (h : d.Enters p segs l) : d.entry? p = d.entryAt? (fileIn l name) := by
  cases he : d.entryAt? (fileIn l name) with
  | some e =>
    rw [ entry?, find_of_enters hp h he]
    exact he
  | none =>
    unfold entry?
    split
    · rename_i l' hfind
      rw [find_file hp, h.along] at hfind
      obtain ⟨l₁, hl, -, rfl⟩ := follow_eq_found hfind
      obtain rfl := Place.found.inj hl
      rw [onward_name hp.isName]
      exact he
    · rfl

theorem read_of_enters (h : d.Enters p segs l) {c : String}
    (he : d.entryAt? (fileIn l name) = some (.file c)) : d.read p = .ok c := by
  rw [read, entry?, find_of_enters hp h he]
  simp only [he]

theorem write_eq_ok {c : String} (h : d.write p c = .ok d') :
    ∃ l, d.Enters p segs l ∧ d.entryAt? (fileIn l name) ≠ some .directory ∧
      d' = d.put (fileIn l name) (.file c) := by
  have honward := onward_name hp.isName
  unfold write at h
  split at h
  · rename_i l' hfind
    cases h
    rw [find_file hp] at hfind
    obtain ⟨-, hnil⟩ | ⟨l, halong, hdir, rfl⟩ := follow_eq_free hfind
    · exact absurd hnil hp.isName.1
    · refine ⟨l, ⟨halong, hdir⟩, fun hl => ?_, by rw [honward]; rfl⟩
      -- What is there would have been found.
      rw [halong, follow_directory hdir (by rw [honward]; exact hl ▸ rfl)] at hfind
      cases hfind
  · rename_i l' hfind
    split at h
    · cases h
    · rename_i hnot
      cases h
      rw [find_file hp] at hfind
      obtain ⟨l, halong, hdir, rfl⟩ := follow_eq_found hfind
      rw [honward] at hnot ⊢
      exact ⟨l, ⟨halong, hdir⟩, hnot, rfl⟩
  · cases h

end File

theorem entryAt?_erase {d : Disk} {l : Location} (hl : l ≠ []) (l' : Location) :
    ({ d with entries := d.entries.erase l } : Disk).entryAt? l' =
      if l' = l then none else d.entryAt? l' := by
  unfold entryAt?
  simp only [Std.ExtTreeMap.getElem?_erase, Std.LawfulEqCmp.compare_eq_iff_eq]
  by_cases hl' : l' = l
  · subst hl'
    simp [hl]
  · simp [hl', Ne.symm hl']

/-- **A file that is renamed within its directory can be read at its new path.** -/
theorem rename_eq_ok {d d' : Disk} {p q : Path} {segs : List (List Char)} {name name' : List Char}
    {l : Location} {c : String} (hp : p.EndsIn segs name) (hq : q.EndsIn segs name')
    (hne : name ≠ name') (hdp : d.Enters p segs l) (hdq : d.Enters q segs l)
    (hc : d.entryAt? (fileIn l name') = some (.file c)) (h : d.rename q p = .ok d') :
    d.Extends d' ∧ d'.entryAt? (fileIn l name) = some (.file c) := by
  have hfiles : fileIn l name ≠ fileIn l name' := fileIn_ne hne l
  have hread := read_of_enters hq hdq hc
  cases hwrite : d.write p c with
  | error reason => simp [rename, hread, hwrite, bind, Except.bind] at h
  | ok moved =>
    obtain ⟨l', hdp', hnot, rfl⟩ := write_eq_ok hp hwrite
    obtain rfl : l' = l := by simpa [hdp.along] using hdp'.along.symm
    have hext := extends_put (d := d) (e := .file c) fun hl => absurd hl hnot
    have hput := entryAt?_put (d := d) (fileIn_ne_nil l' name) (.file c)
    -- The old file is another one than the new, so it is there to be removed.
    have hold : (d.put (fileIn l' name) (.file c)).entryAt? (fileIn l' name') =
        some (.file c) := by
      rw [hput, if_neg hfiles.symm, hc]
    have hfind : d.find q ≠ d.find p := by
      intro he
      rw [find_of_enters hq hdq hc, find_file hp] at he
      obtain ⟨l₁, halong, -, hl₁⟩ := follow_eq_found he.symm
      obtain rfl : l₁ = l' := by simpa [hdp.along] using halong.symm
      exact hfiles (hl₁.trans (onward_name hp.isName l₁)).symm
    simp only [rename, hread, hwrite, bind, Except.bind, if_neg hfind, removeFile,
      find_of_enters hq (hdq.extends hext) hold, hold, Option.some.injEq, reduceCtorEq,
      if_false] at h
    cases h
    have herase := entryAt?_erase (d := d.put (fileIn l' name) (.file c)) (fileIn_ne_nil l' name')
    refine ⟨hext.trans ⟨fun {l₁} hl₁ => ?_, rfl⟩, ?_⟩
    · rw [herase, if_neg]
      · exact hl₁
      · rintro rfl
        rw [hold] at hl₁
        cases hl₁
    · rw [herase, if_neg hfiles, hput, if_pos rfl]

end Disk

end CodeGraph

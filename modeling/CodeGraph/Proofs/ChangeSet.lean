import CodeGraph.Change.Set

/-!
# The pending changes of a set

A change set is seen as a map from paths to pending changes. Each operation on slots and positions
is one update of that map.

* `ChangeSet.Indexed`: slots and positions agree.
* `ChangeSet.pending`: the pending change of a path, given by its parts.
* `ChangeSet.mem_toList`: the settled list holds the pending changes.
* `ChangeSet.pending_take`, `ChangeSet.pending_append`, `ChangeSet.pending_put`: the map after each
  operation.
* **`ChangeSet.pending_push`**: the map after a newer change was recorded.
* `mem_settle_of_plain`: the settled list of changes that are no renames.
-/

namespace CodeGraph

open Std

theorem Path.same_iff {p q : Path} : p.same q = true ↔ p.parts = q.parts := beq_iff_eq

namespace Change

theorem path_merge {pending newer : Change} (h : pending.path.parts = newer.path.parts) :
    (pending.merge newer).path.parts = newer.path.parts := by
  unfold merge
  split <;> first | rfl | exact h

theorem merge_of_isSome_source? (pending : Change) {newer : Change} {source : Path}
    (h : newer.source? = some source) : pending.merge newer = newer := by
  obtain ⟨path, kind⟩ := newer
  cases kind with
  | renamed source => cases hk : pending.kind <;> simp [merge]
  | created | modified | deleted => simp [source?] at h

theorem merge_of_source?_eq_none {pending : Change} (h : pending.source? = none) (newer : Change) :
    pending.merge newer = newer := by
  obtain ⟨path, kind⟩ := pending
  cases kind with
  | renamed source => simp [source?] at h
  | created | modified | deleted => cases hk : newer.kind <;> simp [merge, hk]

theorem merge_eq_or (pending newer : Change) :
    pending.merge newer = pending ∨ pending.merge newer = newer := by
  unfold merge
  split <;> simp

/-- The parts of the place that a rename leaves. -/
def sourceKey? (c : Change) : Option (List Part) := c.source?.map Path.parts

theorem any_source?_same {c : Change} {p : Path} :
    c.source?.any (·.same p) = true ↔ c.sourceKey? = some p.parts := by
  unfold sourceKey?
  cases c.source? <;> simp [Path.same]

end Change

namespace ChangeSet

/-- A path has a position exactly if the slot there holds a change of it. -/
def Indexed (s : ChangeSet) : Prop :=
  ∀ (k : List Part) (i : Nat),
    s.positions[k]? = some i ↔ ∃ c : Change, s.slots[i]? = some (some c) ∧ c.path.parts = k

/-- The pending change of a path, given by its parts. -/
def pending (s : ChangeSet) (k : List Part) : Option Change :=
  s.positions[k]?.bind fun i => (s.slots[i]?).join

theorem indexed_empty : empty.Indexed := by
  intro k i
  simp [empty]

theorem pending_empty (k : List Part) : empty.pending k = none := by
  simp [pending, empty]

section View

variable {s : ChangeSet} (h : s.Indexed)
include h

theorem slot_of_position {k : List Part} {i : Nat} (hk : s.positions[k]? = some i) :
    ∃ c, s.slots[i]? = some (some c) ∧ c.path.parts = k ∧ s.pending k = some c := by
  obtain ⟨c, hc, hp⟩ := (h k i).1 hk
  exact ⟨c, hc, hp, by simp [pending, hk, hc]⟩

theorem pending_eq_none_iff {k : List Part} : s.pending k = none ↔ s.positions[k]? = none := by
  cases hk : s.positions[k]? with
  | none => simp [pending, hk]
  | some i =>
    obtain ⟨c, -, -, hc⟩ := slot_of_position h hk
    simp [hc]

theorem pending_eq_some_iff {k : List Part} {c : Change} :
    s.pending k = some c ↔ ∃ i : Nat, s.slots[i]? = some (some c) ∧ c.path.parts = k := by
  constructor
  · intro hc
    cases hk : s.positions[k]? with
    | none => simp [pending, hk] at hc
    | some i =>
      obtain ⟨c', hs, hp, hc'⟩ := slot_of_position h hk
      obtain rfl : c' = c := by simpa [hc'] using hc
      exact ⟨i, hs, hp⟩
  · rintro ⟨i, hs, hp⟩
    have hk := (h k i).2 ⟨c, hs, hp⟩
    simp [pending, hk, hs]

theorem path_of_pending {k : List Part} {c : Change} (hc : s.pending k = some c) :
    c.path.parts = k := by
  obtain ⟨i, -, hp⟩ := (pending_eq_some_iff h).1 hc
  exact hp

theorem mem_toList {c : Change} : c ∈ s.toList ↔ s.pending c.path.parts = some c := by
  rw [pending_eq_some_iff h, toList, List.mem_filterMap]
  simp only [id, exists_eq_right, and_true, List.mem_iff_getElem?, Array.getElem?_toList]

theorem isPending_eq (path : Path) : s.isPending path = (s.pending path.parts).isSome := by
  rw [isPending, ExtTreeMap.contains_eq_isSome_getElem?, Bool.eq_iff_iff, Option.isSome_iff_ne_none,
    Option.isSome_iff_ne_none, ne_eq, ne_eq, pending_eq_none_iff h]

end View

/-! ## Taking a change out -/

theorem positions_take (s : ChangeSet) (path : Path) (k : List Part) :
    (s.take path).1.positions[k]? = if path.parts = k then none else s.positions[k]? := by
  unfold take
  cases hp : s.positions[path.parts]? with
  | none =>
    by_cases hk : path.parts = k
    · simp [← hk, hp]
    · simp [hk]
  | some i => simp [ExtTreeMap.getElem?_erase]

section Take

variable {s : ChangeSet} (h : s.Indexed) (path : Path)
include h

theorem slots_take (i : Nat) (c : Change) :
    (s.take path).1.slots[i]? = some (some c) ↔
      s.slots[i]? = some (some c) ∧ c.path.parts ≠ path.parts := by
  unfold take
  cases hp : s.positions[path.parts]? with
  | none =>
    refine ⟨fun hc => ⟨hc, fun he => ?_⟩, fun hc => hc.1⟩
    have := (h path.parts i).2 ⟨c, hc, he⟩
    rw [hp] at this
    cases this
  | some j =>
    simp only [Array.getElem?_setIfInBounds]
    by_cases hj : j = i
    · subst hj
      obtain ⟨c', hc', hp', -⟩ := slot_of_position h hp
      simp only [if_true]
      constructor
      · intro hc
        split at hc <;> cases hc
      · rintro ⟨hc, hne⟩
        rw [hc'] at hc
        cases hc
        exact absurd hp' hne
    · simp only [if_neg hj]
      refine ⟨fun hc => ⟨hc, fun he => ?_⟩, fun hc => hc.1⟩
      have := (h path.parts i).2 ⟨c, hc, he⟩
      rw [hp] at this
      exact hj (Option.some.inj this)

theorem indexed_take : (s.take path).1.Indexed := by
  intro k i
  rw [positions_take]
  simp only [slots_take h]
  split
  · rename_i hk
    constructor
    · rintro ⟨⟩
    · rintro ⟨c, ⟨-, hne⟩, hc⟩
      exact absurd (hc.trans hk.symm) hne
  · rename_i hk
    rw [h k i]
    constructor
    · rintro ⟨c, hc, rfl⟩
      exact ⟨c, ⟨hc, Ne.symm hk⟩, rfl⟩
    · rintro ⟨c, ⟨hc, -⟩, rfl⟩
      exact ⟨c, hc, rfl⟩

theorem pending_take (k : List Part) :
    (s.take path).1.pending k = if path.parts = k then none else s.pending k := by
  split
  · rename_i hk
    rw [pending_eq_none_iff (indexed_take h path), positions_take, if_pos hk]
  · rename_i hk
    ext c
    rw [pending_eq_some_iff (indexed_take h path), pending_eq_some_iff h]
    simp only [slots_take h]
    constructor
    · rintro ⟨i, ⟨hc, -⟩, rfl⟩
      exact ⟨i, hc, rfl⟩
    · rintro ⟨i, hc, rfl⟩
      exact ⟨i, ⟨hc, Ne.symm hk⟩, rfl⟩

theorem take_eq_none : (s.take path).2 = none ↔ s.pending path.parts = none := by
  rw [pending_eq_none_iff h]
  unfold take
  cases hp : s.positions[path.parts]? with
  | none => simp
  | some i =>
    obtain ⟨c, hc, -⟩ := slot_of_position h hp
    simp [hc]

theorem take_eq_some {i : Nat} {c : Change} (ht : (s.take path).2 = some (i, c)) :
    s.pending path.parts = some c ∧ (s.take path).1.slots[i]? = some none := by
  unfold take at ht ⊢
  cases hp : s.positions[path.parts]? with
  | none => simp [hp] at ht
  | some j =>
    obtain ⟨c', hc, -, hpend⟩ := slot_of_position h hp
    simp only [hp, hc, Option.join_some, Option.map_some, Option.some.injEq, Prod.mk.injEq] at ht
    obtain ⟨rfl, rfl⟩ := ht
    refine ⟨hpend, ?_⟩
    have hj : j < s.slots.size := (Array.getElem?_eq_some_iff.1 hc).1
    simp [hj]

end Take

/-! ## Putting a change in -/

section Put

variable {s s' : ChangeSet} (h : s.Indexed) {c : Change} (hc : s.pending c.path.parts = none)
  {i : Nat}
include h hc

theorem indexed_write (hpos : s'.positions = s.positions.insert c.path.parts i)
    (hslot : ∀ (j : Nat) (d : Change), s'.slots[j]? = some (some d) ↔
      (j = i ∧ d = c) ∨ s.slots[j]? = some (some d)) : s'.Indexed := by
  intro k j
  have hnone := (pending_eq_none_iff h).1 hc
  simp only [hslot, hpos, ExtTreeMap.getElem?_insert, LawfulEqCmp.compare_eq_iff_eq]
  split
  · rename_i hk
    subst hk
    constructor
    · rintro ⟨⟩
      exact ⟨c, .inl ⟨rfl, rfl⟩, rfl⟩
    · rintro ⟨d, ⟨rfl, rfl⟩ | hd, hp⟩
      · rfl
      · rw [(h _ j).2 ⟨d, hd, hp⟩] at hnone
        cases hnone
  · rename_i hk
    rw [h k j]
    constructor
    · rintro ⟨d, hd, hp⟩
      exact ⟨d, .inr hd, hp⟩
    · rintro ⟨d, ⟨rfl, rfl⟩ | hd, hp⟩
      · exact absurd hp hk
      · exact ⟨d, hd, hp⟩

theorem pending_write (hpos : s'.positions = s.positions.insert c.path.parts i)
    (hslot : ∀ (j : Nat) (d : Change), s'.slots[j]? = some (some d) ↔
      (j = i ∧ d = c) ∨ s.slots[j]? = some (some d)) (k : List Part) :
    s'.pending k = if c.path.parts = k then some c else s.pending k := by
  ext d
  rw [pending_eq_some_iff (indexed_write h hc hpos hslot)]
  simp only [hslot]
  split
  · rename_i hk
    constructor
    · rintro ⟨j, ⟨rfl, rfl⟩ | hd, hp⟩
      · rfl
      · rw [(pending_eq_some_iff h).2 ⟨j, hd, hp.trans hk.symm⟩] at hc
        cases hc
    · rintro ⟨⟩
      exact ⟨i, .inl ⟨rfl, rfl⟩, hk⟩
  · rename_i hk
    rw [pending_eq_some_iff h]
    constructor
    · rintro ⟨j, ⟨rfl, rfl⟩ | hd, hp⟩
      · exact absurd hp hk
      · exact ⟨j, hd, hp⟩
    · rintro ⟨j, hd, hp⟩
      exact ⟨j, .inr hd, hp⟩

omit h hc in
theorem slots_append (j : Nat) (d : Change) :
    (s.append c).slots[j]? = some (some d) ↔
      (j = s.slots.size ∧ d = c) ∨ s.slots[j]? = some (some d) := by
  simp only [append, Array.getElem?_push]
  split
  · rename_i hj
    subst hj
    simp [eq_comm]
  · rename_i hj
    simp [hj]

theorem indexed_append : (s.append c).Indexed := indexed_write h hc rfl slots_append

theorem pending_append (k : List Part) :
    (s.append c).pending k = if c.path.parts = k then some c else s.pending k :=
  pending_write h hc rfl slots_append k

omit h hc in
theorem slots_put (hi : s.slots[i]? = some none) (j : Nat) (d : Change) :
    (s.put i c).slots[j]? = some (some d) ↔ (j = i ∧ d = c) ∨ s.slots[j]? = some (some d) := by
  have hlt : i < s.slots.size := (Array.getElem?_eq_some_iff.1 hi).1
  simp only [put, Array.getElem?_setIfInBounds]
  by_cases hj : i = j
  · subst hj
    rw [hi]
    simp [hlt, eq_comm]
  · simp [hj, Ne.symm hj]

theorem indexed_put (hi : s.slots[i]? = some none) : (s.put i c).Indexed :=
  indexed_write h hc rfl (slots_put hi)

theorem pending_put (hi : s.slots[i]? = some none) (k : List Part) :
    (s.put i c).pending k = if c.path.parts = k then some c else s.pending k :=
  pending_write h hc rfl (slots_put hi) k

end Put

/-! ## Recording a change -/

/-- The source of the pending rename onto the place that a rename leaves. -/
def origin? (s : ChangeSet) (c : Change) : Option Path :=
  c.source?.bind fun source => (s.pending source.parts).bind Change.source?

theorem fst_subsume (s : ChangeSet) (c : Change) :
    (s.subsume c).1 = c.source?.elim s fun source => (s.take source).1 := by
  unfold subsume
  cases c.source? with
  | none => rfl
  | some source =>
    simp only [Option.elim_some]
    rcases s.take source with ⟨s', _ | ⟨i, previous⟩⟩
    · rfl
    · cases hp : previous.source? with
      | none => simp only [hp]
      | some origin => simp only [hp]; split <;> rfl

section Subsume

variable {s : ChangeSet} (h : s.Indexed) (c : Change)
include h

theorem indexed_subsume : (s.subsume c).1.Indexed := by
  rw [fst_subsume]
  cases c.source? with
  | none => exact h
  | some source => exact indexed_take h source

theorem pending_subsume (k : List Part) :
    (s.subsume c).1.pending k =
      if c.sourceKey? = some k then none else s.pending k := by
  rw [fst_subsume]
  unfold Change.sourceKey?
  cases c.source? with
  | none => simp
  | some source => simpa using pending_take h source k

/-- A rename goes back to the origin of the pending rename that it continues, unless a change of
the origin is pending. -/
theorem snd_subsume :
    (s.subsume c).2 =
      match s.origin? c with
      | some origin =>
        if ((s.subsume c).1.pending origin.parts).isSome then c else .renamed origin c.path
      | none => c := by
  have hi := indexed_subsume h c
  have hfst := fst_subsume s c
  generalize (s.subsume c).1 = s' at hi hfst ⊢
  unfold origin? subsume
  cases hc : c.source? with
  | none => rfl
  | some source =>
    have hnone := take_eq_none h source
    have hsome := @take_eq_some s h source
    rw [hc, Option.elim_some] at hfst
    rw [Option.bind_some]
    rcases hq : s.take source with ⟨s2, _ | ⟨i, previous⟩⟩ <;> rw [hq] at hnone hsome hfst <;>
      obtain rfl : s' = s2 := hfst
    · simp only [hq, hnone.1 rfl, Option.bind_none]
    · rw [(hsome rfl).1, Option.bind_some]
      cases hp : previous.source? with
      | none => simp only [hq, hp]
      | some origin =>
        simp only [hq, hp, isPending_eq hi]
        split <;> rfl

theorem path_subsume : (s.subsume c).2.path = c.path := by
  rw [snd_subsume h]
  split
  · split <;> rfl
  · rfl

end Subsume

/-- Putting a merged change into the slot of a pending one. If the pending change was a rename whose
source the merged change no longer names, and no change of that source is pending, a deletion of the
source is added. -/
theorem pending_replace {s : ChangeSet} (h : s.Indexed) {i : Nat} {q c : Change}
    (hslot : s.slots[i]? = some none) (hm : s.pending (q.merge c).path.parts = none) :
    (s.replace i q c).Indexed ∧
    ((∀ o, q.source? = some o → (q.merge c).source?.any (·.same o) = true ∨
        o.parts = (q.merge c).path.parts ∨ (s.pending o.parts).isSome = true) ∧
      (∀ k, (s.replace i q c).pending k =
        if (q.merge c).path.parts = k then some (q.merge c) else s.pending k) ∨
    ∃ o, q.source? = some o ∧ o.parts ≠ (q.merge c).path.parts ∧ s.pending o.parts = none ∧
      ∀ k, (s.replace i q c).pending k =
        if (q.merge c).path.parts = k then some (q.merge c)
        else if o.parts = k then some (.deleted o) else s.pending k) := by
  have hput := indexed_put h hm hslot
  have hpp := pending_put h hm hslot
  unfold replace
  cases hsrc : q.source? with
  | none => exact ⟨hput, .inl ⟨fun o ho => (nomatch ho), hpp⟩⟩
  | some o =>
    dsimp only
    split
    · -- The source is still named, or has a pending change of its own.
      rename_i hkept
      refine ⟨hput, .inl ⟨fun o' ho => ?_, hpp⟩⟩
      obtain rfl := Option.some.inj ho
      rw [Bool.or_eq_true, isPending_eq hput, hpp] at hkept
      rcases hkept with hk | hk
      · exact .inl hk
      · by_cases hsame : (q.merge c).path.parts = o.parts
        · exact .inr (.inl hsame.symm)
        · rw [if_neg hsame] at hk
          exact .inr (.inr hk)
    · -- Nothing names the source any more: it is recorded as deleted.
      rename_i hkept
      rw [Bool.or_eq_true, not_or, isPending_eq hput, hpp] at hkept
      have hne : (q.merge c).path.parts ≠ o.parts := by
        intro he
        simp [he] at hkept
      have hnone : s.pending o.parts = none := by simpa [hne] using hkept.2
      have hdel : (s.put i (q.merge c)).pending (Change.deleted o).path.parts = none := by
        change (s.put i (q.merge c)).pending o.parts = none
        rw [hpp, if_neg hne, hnone]
      refine ⟨indexed_append hput hdel, .inr ⟨o, rfl, Ne.symm hne, hnone, fun k => ?_⟩⟩
      rw [pending_append hput hdel, hpp]
      change (if o.parts = k then some (Change.deleted o) else _) = _
      by_cases hk : (q.merge c).path.parts = k
      · have ho : ¬ o.parts = k := fun he => hne (hk.trans he.symm)
        simp [hk, ho]
      · simp [hk]

/-- The change that stands at the path of a newer one once that is recorded. -/
def merged (s : ChangeSet) (c : Change) : Change :=
  ((s.subsume c).1.pending c.path.parts).elim (s.subsume c).2 fun q => q.merge (s.subsume c).2

section Push

variable {s : ChangeSet} (h : s.Indexed) (c : Change)
include h

theorem path_merged : (s.merged c).path.parts = c.path.parts := by
  have hpath := path_subsume h c
  unfold merged
  cases hq : (s.subsume c).1.pending c.path.parts with
  | none => exact congrArg Path.parts hpath
  | some q =>
    rw [← hpath]
    apply Change.path_merge
    rw [hpath, path_of_pending (indexed_subsume h c) hq]

/-- **Recording a change.** The merged change stands at its path. If the pending change there was a
rename whose source the merged change no longer names, and no change of that source is pending, a
deletion of the source is added; nothing else changes. -/
theorem pending_push :
    (s.push c).Indexed ∧
    ((∀ q o, (s.subsume c).1.pending c.path.parts = some q → q.source? = some o →
        (s.merged c).source?.any (·.same o) = true ∨ o.parts = c.path.parts ∨
          ((s.subsume c).1.pending o.parts).isSome = true) ∧
      (∀ k, (s.push c).pending k =
        if c.path.parts = k then some (s.merged c) else (s.subsume c).1.pending k) ∨
    ∃ q o, (s.subsume c).1.pending c.path.parts = some q ∧ q.source? = some o ∧
      o.parts ≠ c.path.parts ∧ (s.subsume c).1.pending o.parts = none ∧
      ∀ k, (s.push c).pending k =
        if c.path.parts = k then some (s.merged c)
        else if o.parts = k then some (.deleted o) else (s.subsume c).1.pending k) := by
  have h1 := indexed_subsume h c
  have hpath : (s.subsume c).2.path.parts = c.path.parts := by rw [path_subsume h]
  have hmpath := path_merged h c
  unfold push
  unfold merged at hmpath ⊢
  generalize hs : s.subsume c = sub at *
  obtain ⟨s1, c1⟩ := sub
  dsimp only at h1 hpath hmpath ⊢
  have ht := indexed_take h1 c1.path
  have hpt := pending_take h1 c1.path
  have hnone := take_eq_none h1 c1.path
  have hsome := @take_eq_some s1 h1 c1.path
  generalize s1.take c1.path = taken at *
  obtain ⟨s2, _ | ⟨i, q⟩⟩ := taken
  · -- Nothing is pending at the path: the change gets a slot of its own.
    have hpend := hnone.1 rfl
    have hc1 : s2.pending c1.path.parts = none := by rw [hpt, if_pos rfl]
    refine ⟨indexed_append ht hc1, .inl ⟨fun q o hq => ?_, fun k => ?_⟩⟩
    · rw [← hpath, hpend] at hq
      cases hq
    · rw [pending_append ht hc1, hpt, ← hpath, hpend, Option.elim_none]
      split <;> rfl
  · -- The pending change is replaced in its slot.
    obtain ⟨hpend, hslot⟩ := hsome rfl
    rw [← hpath, hpend, Option.elim_some] at hmpath
    have hm : s2.pending (q.merge c1).path.parts = none := by rw [hmpath, hpt, if_pos rfl]
    have hother : ∀ {k}, c1.path.parts ≠ k → s2.pending k = s1.pending k := by
      intro k hk
      rw [hpt, if_neg hk]
    obtain ⟨hindexed, hreplace⟩ := pending_replace ht hslot hm
    rw [hmpath] at hreplace
    simp only [← hpath, hpend, Option.elim_some, Option.some.injEq]
    refine ⟨hindexed, ?_⟩
    rcases hreplace with ⟨hkept, hk⟩ | ⟨o, ho, hne, hgone, hk⟩
    · refine .inl ⟨fun q' o hq ho => ?_, fun k => ?_⟩
      · subst hq
        by_cases hsame : c1.path.parts = o.parts
        · exact .inr (.inl hsame.symm)
        · rw [← hother hsame]
          exact hkept o ho
      · rw [hk]
        split
        · rfl
        · rename_i hne
          exact hother hne
    · refine .inr ⟨q, o, rfl, ho, hne, by rwa [← hother (Ne.symm hne)], fun k => ?_⟩
      rw [hk]
      split
      · rfl
      · rename_i hne
        rw [hother hne]

theorem indexed_push : (s.push c).Indexed := (pending_push h c).1

theorem pending_push_path : (s.push c).pending c.path.parts = some (s.merged c) := by
  obtain ⟨-, ⟨-, hpush⟩ | ⟨_, _, -, -, -, -, hpush⟩⟩ := pending_push h c <;>
    rw [hpush, if_pos rfl]

theorem toList_push_ne_nil : (s.push c).toList ≠ [] := by
  refine List.ne_nil_of_mem ((mem_toList (c := s.merged c) (indexed_push h c)).2 ?_)
  rw [path_merged h, pending_push_path h]

end Push

theorem indexed_foldl {s : ChangeSet} (h : s.Indexed) (changes : List Change) :
    (changes.foldl push s).Indexed := by
  induction changes generalizing s with
  | nil => exact h
  | cons c changes ih => exact ih (indexed_push h c)

theorem indexed_ofList (changes : List Change) : (ofList changes).Indexed :=
  indexed_foldl indexed_empty changes

/-! ## Changes that are no renames -/

/-- Nothing that is pending is a rename. -/
def Plain (s : ChangeSet) : Prop := ∀ k d, s.pending k = some d → d.source? = none

theorem pending_push_plain {s : ChangeSet} (h : s.Indexed) (hs : s.Plain) {c : Change}
    (hc : c.source? = none) (k : List Part) :
    (s.push c).pending k = if c.path.parts = k then some c else s.pending k := by
  have hsub : s.subsume c = (s, c) := by
    unfold subsume
    rw [hc]
  have hmerged : s.merged c = c := by
    unfold merged
    rw [hsub]
    cases hq : s.pending c.path.parts with
    | none => rfl
    | some q => exact Change.merge_of_source?_eq_none (hs _ q hq) c
  have hpush := (pending_push h c).2
  rw [hsub, hmerged] at hpush
  rcases hpush with ⟨-, hpush⟩ | ⟨q, o, hq, ho, -⟩
  · exact hpush k
  · rw [hs _ q hq] at ho
    cases ho

theorem pending_foldl_plain {changes : List Change} (hplain : ∀ c ∈ changes, c.source? = none)
    {s : ChangeSet} (h : s.Indexed) (hs : s.Plain) (k : List Part) :
    (changes.foldl push s).pending k =
      (changes.reverse.find? fun c => c.path.parts == k).or (s.pending k) := by
  induction changes generalizing s with
  | nil => rfl
  | cons c changes ih =>
    have hc := hplain c List.mem_cons_self
    have hpush := pending_push_plain h hs hc
    have hplain' : (s.push c).Plain := by
      intro k d hd
      rw [hpush] at hd
      split at hd
      · cases hd
        exact hc
      · exact hs k d hd
    rw [List.foldl_cons, ih (fun d hd => hplain d (List.mem_cons_of_mem _ hd)) (indexed_push h c)
      hplain', hpush, List.reverse_cons, List.find?_append]
    by_cases hk : c.path.parts = k
    · simp [hk]
    · simp [hk]

end ChangeSet

/-- Settling changes that are no renames keeps the last one of each path. -/
theorem mem_settle_of_plain {changes : List Change} (hplain : ∀ c ∈ changes, c.source? = none)
    {c : Change} :
    c ∈ settle changes ↔
      changes.reverse.find? (fun d => d.path.parts == c.path.parts) = some c := by
  have hpending := ChangeSet.pending_foldl_plain hplain ChangeSet.indexed_empty
    (fun k d hd => by simp [ChangeSet.pending_empty] at hd) c.path.parts
  rw [settle, ChangeSet.mem_toList (ChangeSet.indexed_ofList changes), ChangeSet.ofList, hpending,
    ChangeSet.pending_empty, Option.or_none]

theorem exists_settle_of_plain {changes : List Change} (hplain : ∀ c ∈ changes, c.source? = none)
    {c : Change} (hc : c ∈ changes) : ∃ d ∈ settle changes, d.path.parts = c.path.parts := by
  have hsome : (changes.reverse.find? fun d => d.path.parts == c.path.parts).isSome = true := by
    rw [List.find?_isSome]
    exact ⟨c, List.mem_reverse.2 hc, by simp⟩
  obtain ⟨d, hd⟩ := Option.isSome_iff_exists.1 hsome
  have hparts : d.path.parts = c.path.parts := by simpa using List.find?_some hd
  exact ⟨d, (mem_settle_of_plain hplain).2 (hparts ▸ hd), hparts⟩

end CodeGraph

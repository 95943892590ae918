import CodeGraph.Proofs.Settle

/-!
# The order of a settled list

The changes of a settled list have distinct paths, and a rename stands before the change of the
place that it leaves. Such a list settles to itself, and what it says about a file is what the one
change of the file says. A burst therefore leaves the same files analyzed as the settled list.

* `Orderly`: distinct paths, and no rename after the change of its source.
* `ChangeSet.ordered_push`, `orderly_settle`: every settled list is orderly.
* `settle_eq_self`: an orderly list settles to itself.
* `marks`: what changes do to files, one after the other.
* **`analyzed_settle_iff`**: settling keeps which files are analyzed.
-/

namespace CodeGraph

open Std

/-- Two changes that may stand in this order: their paths differ, and the second is no rename away
from the path of the first. -/
def Change.Before (a b : Change) : Prop :=
  a.path.parts ≠ b.path.parts ∧ b.sourceKey? ≠ some a.path.parts

/-- A list with distinct paths in which no rename comes after the change of its source. -/
def Orderly (changes : List Change) : Prop := changes.Pairwise Change.Before

theorem Orderly.nodup_paths {changes : List Change} (h : Orderly changes) :
    (changes.map (·.path.parts)).Nodup :=
  h.map _ fun _ _ hbefore => hbefore.1

namespace ChangeSet

/-- No rename stands in a slot after the change of its source. -/
def Ordered (s : ChangeSet) : Prop :=
  ∀ (i j : Nat) (a b : Change), i < j → s.slots[i]? = some (some a) →
    s.slots[j]? = some (some b) → b.sourceKey? ≠ some a.path.parts

theorem ordered_empty : empty.Ordered := by
  intro i j a b _ ha
  simp [empty] at ha

section View

variable {s : ChangeSet} (h : s.Indexed)
include h

theorem orderly_toList (ho : s.Ordered) : Orderly s.toList := by
  rw [Orderly, toList, List.pairwise_filterMap, List.pairwise_iff_getElem]
  intro i j hi hj hij a ha b hb
  have ha' : s.slots[i]? = some (some a) := by
    rw [← Array.getElem?_toList, List.getElem?_eq_getElem hi, ← ha, id]
  have hb' : s.slots[j]? = some (some b) := by
    rw [← Array.getElem?_toList, List.getElem?_eq_getElem hj, ← hb, id]
  refine ⟨fun hp => ?_, ho i j a b hij ha' hb'⟩
  -- Two slots of one path would be two positions of it.
  have hpi := (h a.path.parts i).2 ⟨a, ha', rfl⟩
  have hpj := (h a.path.parts j).2 ⟨b, hb', hp.symm⟩
  rw [hpi] at hpj
  cases hpj
  omega

theorem pending_eq_none_of_forall {k : List Part} (hk : ∀ d ∈ s.toList, d.path.parts ≠ k) :
    s.pending k = none := by
  cases hd : s.pending k with
  | none => rfl
  | some d =>
    obtain rfl := path_of_pending h hd
    exact absurd rfl (hk d ((mem_toList h).2 hd))

theorem isEmpty_iff : s.isEmpty = true ↔ s.toList = [] := by
  have hpositions : s.isEmpty = true ↔ ∀ k : List Part, s.positions[k]? = none := by
    rw [isEmpty, ExtTreeMap.isEmpty_iff]
    constructor
    · intro he k
      rw [he]
      simp
    · intro hall
      ext k : 1
      rw [hall k]
      simp
  rw [hpositions, List.eq_nil_iff_forall_not_mem]
  constructor
  · intro hall c hc
    have hnone := (pending_eq_none_iff h).2 (hall c.path.parts)
    rw [(mem_toList h).1 hc] at hnone
    cases hnone
  · intro hall k
    rw [← pending_eq_none_iff h]
    exact pending_eq_none_of_forall h fun d hd => absurd hd (hall d)

end View

/-! ## What a push does to the slots -/

section Slots

variable {s : ChangeSet} (h : s.Indexed)
include h

theorem ne_of_pending_eq_none {k : List Part} (hk : s.pending k = none) {i : Nat} {a : Change}
    (ha : s.slots[i]? = some (some a)) : a.path.parts ≠ k := by
  intro hp
  rw [(pending_eq_some_iff h).2 ⟨i, ha, hp⟩] at hk
  cases hk

theorem ordered_take (ho : s.Ordered) (path : Path) : (s.take path).1.Ordered := by
  intro i j a b hij ha hb
  exact ho i j a b hij ((slots_take h path i a).1 ha).1 ((slots_take h path j b).1 hb).1

theorem ordered_append (ho : s.Ordered) {c : Change}
    (hc : ∀ k, c.sourceKey? = some k → s.pending k = none) : (s.append c).Ordered := by
  intro i j a b hij ha hb hs
  have hlt : ∀ {i : Nat} {d : Change}, s.slots[i]? = some (some d) → i < s.slots.size :=
    fun hd => (Array.getElem?_eq_some_iff.1 hd).1
  rcases (slots_append i a).1 ha with ⟨rfl, rfl⟩ | ha' <;>
    rcases (slots_append j b).1 hb with ⟨rfl, rfl⟩ | hb'
  · omega
  · have := hlt hb'
    omega
  · exact ne_of_pending_eq_none h (hc _ hs) ha' rfl
  · exact ho i j a b hij ha' hb' hs

omit h in
/-- A change may stand in a free slot if the renames away from it stand before and the changes of
its source after. -/
theorem ordered_put (ho : s.Ordered) {i : Nat} {c : Change} (hi : s.slots[i]? = some none)
    (hbefore : ∀ j a, j < i → s.slots[j]? = some (some a) → c.sourceKey? ≠ some a.path.parts)
    (hafter : ∀ j b, i < j → s.slots[j]? = some (some b) → b.sourceKey? ≠ some c.path.parts) :
    (s.put i c).Ordered := by
  intro j k a b hjk ha hb
  rcases (slots_put hi j a).1 ha with ⟨rfl, rfl⟩ | ha' <;>
    rcases (slots_put hi k b).1 hb with ⟨rfl, rfl⟩ | hb'
  · omega
  · exact hafter k b hjk hb'
  · exact hbefore j a hjk ha'
  · exact ho j k a b hjk ha' hb'

theorem slot_of_take {path : Path} {i : Nat} {q : Change} (ht : (s.take path).2 = some (i, q)) :
    s.slots[i]? = some (some q) ∧ q.path.parts = path.parts := by
  unfold take at ht
  cases hp : s.positions[path.parts]? with
  | none => simp [hp] at ht
  | some j =>
    obtain ⟨c, hc, hpath, -⟩ := slot_of_position h hp
    simp only [hp, hc, Option.join_some, Option.map_some, Option.some.injEq, Prod.mk.injEq] at ht
    obtain ⟨rfl, rfl⟩ := ht
    exact ⟨hc, hpath⟩

theorem pending_source_subsume (c : Change) {k : List Part}
    (hk : (s.subsume c).2.sourceKey? = some k) : (s.subsume c).1.pending k = none := by
  rcases snd_subsume_cases h c with he | ⟨-, -, o, -, -, -, hnone, he⟩
  · rw [he] at hk
    rw [pending_subsume h, if_pos hk]
  · rw [he] at hk
    obtain rfl : o.parts = k := Option.some.inj hk
    exact hnone

/-- Replacing a pending change in its slot keeps the order: what leaves its path stands before it,
and nothing is pending at the source of the newer change. -/
theorem ordered_replace (ho : s.Ordered) {c q : Change} {i : Nat}
    (hc : ∀ k, c.sourceKey? = some k → s.pending k = none)
    (ht : (s.take c.path).2 = some (i, q)) : ((s.take c.path).1.replace i q c).Ordered := by
  obtain ⟨hslot, hpath⟩ := slot_of_take h ht
  have hfree := (take_eq_some h c.path ht).2
  have hindexed := indexed_take h c.path
  have hkept := fun j a => slots_take h c.path j a
  have hmpath : (q.merge c).path.parts = c.path.parts := Change.path_merge hpath
  have hput : ((s.take c.path).1.put i (q.merge c)).Ordered := by
    refine ordered_put (ordered_take h ho c.path) hfree (fun j a hji ha => ?_)
      (fun j b hij hb => ?_)
    · obtain ⟨ha, -⟩ := (hkept j a).1 ha
      rcases q.merge_eq_or c with hm | hm <;> rw [hm]
      · exact ho j i a q hji ha hslot
      · exact fun hs => ne_of_pending_eq_none h (hc _ hs) ha rfl
    · obtain ⟨hb, -⟩ := (hkept j b).1 hb
      rw [hmpath, ← hpath]
      exact ho i j q b hij hslot hb
  have hnone : (s.take c.path).1.pending (q.merge c).path.parts = none := by
    rw [hmpath, pending_take h, if_pos rfl]
  unfold replace
  cases q.source? with
  | none => exact hput
  | some origin =>
    dsimp only
    split
    · exact hput
    · exact ordered_append (indexed_put hindexed hnone hfree) hput fun k hk => by
        simp [Change.deleted, Change.sourceKey?, Change.source?] at hk

theorem ordered_push (ho : s.Ordered) (c : Change) : (s.push c).Ordered := by
  have hindexed := indexed_subsume h c
  have hordered : (s.subsume c).1.Ordered := by
    rw [fst_subsume]
    cases c.source? with
    | none => exact ho
    | some source => exact ordered_take h ho source
  have hsource := fun k => @pending_source_subsume s h c k
  unfold push
  generalize s.subsume c = sub at *
  obtain ⟨s1, c1⟩ := sub
  dsimp only at hindexed hordered hsource ⊢
  have htaken := ordered_take hindexed hordered c1.path
  have hpt := pending_take hindexed c1.path
  have hreplace := @ordered_replace s1 hindexed hordered c1
  have hi := indexed_take hindexed c1.path
  generalize s1.take c1.path = taken at *
  obtain ⟨s2, _ | ⟨i, q⟩⟩ := taken
  · refine ordered_append hi htaken fun k hk => ?_
    rw [hpt, hsource k hk, ite_self]
  · exact hreplace hsource rfl

end Slots

theorem ordered_ofList (changes : List Change) : (ofList changes).Ordered := by
  have hfold : ∀ {s : ChangeSet}, s.Indexed → s.Ordered → (changes.foldl push s).Ordered := by
    induction changes with
    | nil => exact fun _ ho => ho
    | cons c changes ih => exact fun h ho => ih (indexed_push h c) (ordered_push h ho c)
  exact hfold indexed_empty ordered_empty

theorem push_eq_append {s : ChangeSet} (h : s.Indexed) {c : Change}
    (hpath : s.pending c.path.parts = none)
    (hsource : ∀ k, c.sourceKey? = some k → s.pending k = none) : s.push c = s.append c := by
  have htake : ∀ {path : Path}, s.pending path.parts = none → s.take path = (s, none) := by
    intro path hp
    rw [take, (pending_eq_none_iff h).1 hp]
  have hsubsume : s.subsume c = (s, c) := by
    unfold subsume
    cases hc : c.source? with
    | none => rfl
    | some source => simp only [htake (hsource source.parts (by simp [Change.sourceKey?, hc]))]
  rw [push, hsubsume]
  simp only [htake hpath]

theorem toList_append (s : ChangeSet) (c : Change) : (s.append c).toList = s.toList ++ [c] := by
  simp [toList, append]

end ChangeSet

/-! ## Settled lists -/

theorem orderly_settle (changes : List Change) : Orderly (settle changes) :=
  ChangeSet.orderly_toList (ChangeSet.indexed_ofList changes) (ChangeSet.ordered_ofList changes)

/-- **An orderly list settles to itself.** -/
theorem settle_eq_self {changes : List Change} (h : Orderly changes) :
    settle changes = changes := by
  -- From the end, as the newest change is recorded last: each gets a slot of its own.
  induction changes using List.reverseRecOn with
  | nil => rfl
  | append_singleton changes c ih =>
    obtain ⟨hchanges, -, hlast⟩ := List.pairwise_append.1 h
    have hc := fun d hd => hlast d hd c List.mem_cons_self
    have hindexed := ChangeSet.indexed_ofList changes
    have hlist : (ChangeSet.ofList changes).toList = changes := ih hchanges
    have hnone : ∀ k, (∀ d ∈ changes, d.path.parts ≠ k) →
        (ChangeSet.ofList changes).pending k = none :=
      fun k hk => ChangeSet.pending_eq_none_of_forall hindexed (by rwa [hlist])
    rw [settle_append, ChangeSet.push_eq_append hindexed (hnone _ fun d hd => (hc d hd).1)
      fun k hk => hnone k fun d hd hp => (hc d hd).2 (hp ▸ hk), ChangeSet.toList_append, hlist]

theorem settle_settle (changes : List Change) : settle (settle changes) = settle changes :=
  settle_eq_self (orderly_settle changes)

/-! ## Which files are analyzed -/

/-- What the last change that names a file did to it. -/
inductive Mark where
  | dropped
  | analyzed
  deriving DecidableEq, Repr

/-- What a change does: the source of a rename and its own path are dropped, and then its path is
analyzed unless it was deleted. -/
def Change.mark (marks : PathMap Mark) (c : Change) : PathMap Mark :=
  let dropped := (c.source?.toList ++ [c.path]).foldl (fun m p => m.insert p.parts .dropped) marks
  if c.isDeletion then dropped else dropped.insert c.path.parts .analyzed

/-- What changes do, one after the other. -/
def marks (changes : List Change) : PathMap Mark := changes.foldl Change.mark ∅

theorem getElem?_mark (m : PathMap Mark) (c : Change) (k : List Part) :
    (c.mark m)[k]? =
      if c.path.parts = k then some (if c.isDeletion then .dropped else .analyzed)
      else if c.sourceKey? = some k then some .dropped else m[k]? := by
  have hdropped : ((c.source?.toList ++ [c.path]).foldl
      (fun m p => m.insert p.parts .dropped) m)[k]? =
      if c.path.parts = k then some .dropped
      else if c.sourceKey? = some k then some .dropped else m[k]? := by
    unfold Change.sourceKey?
    cases c.source? <;> simp [ExtTreeMap.getElem?_insert]
  unfold Change.mark
  dsimp only
  split
  · rw [hdropped]
  · rw [ExtTreeMap.getElem?_insert, hdropped]
    simp only [LawfulEqCmp.compare_eq_iff_eq]
    split <;> rfl

theorem marks_append (changes : List Change) (c : Change) :
    marks (changes ++ [c]) = c.mark (marks changes) := by
  rw [marks, List.foldl_append]
  rfl

theorem Change.isDeletion_merge (pending newer : Change) :
    (pending.merge newer).isDeletion = newer.isDeletion := by
  obtain ⟨path, kind⟩ := pending
  obtain ⟨path', kind'⟩ := newer
  cases kind <;> cases kind' <;> rfl

theorem Change.isDeletion_of_source? {c : Change} {source : Path} (h : c.source? = some source) :
    c.isDeletion = false := by
  obtain ⟨path, kind⟩ := c
  cases kind with
  | renamed source => rfl
  | created | modified | deleted => simp [source?] at h

theorem marks_of_orderly {changes : List Change} (h : Orderly changes) (k : List Part) :
    (marks changes)[k]? = some .analyzed ↔
      ∃ d ∈ changes, d.path.parts = k ∧ d.isDeletion = false := by
  induction changes using List.reverseRecOn with
  | nil => simp [marks]
  | append_singleton changes c ih =>
    obtain ⟨hchanges, -, hlast⟩ := List.pairwise_append.1 h
    have hc := fun d hd => hlast d hd c List.mem_cons_self
    rw [marks_append, getElem?_mark]
    by_cases hk : c.path.parts = k
    · have hnone : ∀ d ∈ changes, d.path.parts ≠ k := fun d hd hp => (hc d hd).1 (hp.trans hk.symm)
      rw [if_pos hk]
      cases hdel : c.isDeletion <;> grind
    · rw [if_neg hk]
      by_cases hs : c.sourceKey? = some k
      · -- The change of the file that the rename leaves would have to come later.
        have hnone : ∀ d ∈ changes, d.path.parts ≠ k := fun d hd hp => (hc d hd).2 (hp ▸ hs)
        rw [if_pos hs]
        grind
      · rw [if_neg hs, ih hchanges]
        grind

namespace ChangeSet

theorem exists_pending_push {s : ChangeSet} (h : s.Indexed) (c : Change) (k : List Part) :
    (∃ d, (s.push c).pending k = some d ∧ d.isDeletion = false) ↔
      if c.path.parts = k then c.isDeletion = false
      else c.sourceKey? ≠ some k ∧ ∃ d, s.pending k = some d ∧ d.isDeletion = false := by
  have hmerged : (s.merged c).isDeletion = c.isDeletion := by
    have hsnd : (s.subsume c).2.isDeletion = c.isDeletion := by
      rcases snd_subsume_cases h c with he | ⟨source, -, o, hsource, -, -, -, he⟩
      · rw [he]
      · rw [he, Change.isDeletion_of_source? hsource]
        rfl
    unfold merged
    cases (s.subsume c).1.pending c.path.parts with
    | none => exact hsnd
    | some q => exact (q.isDeletion_merge _).trans hsnd
  have hsub := pending_subsume h c k
  by_cases hk : c.path.parts = k
  · have hpush : (s.push c).pending k = some (s.merged c) := by
      rw [← hk, pending_push_path h c]
    simp [hpush, hk, hmerged]
  · have hother : (∃ d, (s.push c).pending k = some d ∧ d.isDeletion = false) ↔
        ∃ d, (s.subsume c).1.pending k = some d ∧ d.isDeletion = false := by
      obtain ⟨-, ⟨-, hpush⟩ | ⟨_, o, -, -, -, hnone, hpush⟩⟩ := pending_push h c
      · rw [hpush, if_neg hk]
      · rw [hpush, if_neg hk]
        split
        · -- The added deletion stands where nothing was pending.
          rename_i ho
          rw [← ho, hnone]
          simp [Change.deleted, Change.isDeletion]
        · rfl
    rw [if_neg hk, hother, hsub]
    by_cases hs : c.sourceKey? = some k <;> simp [hs]

end ChangeSet

/-- One change after the other, a file is analyzed exactly if its pending change is no deletion. -/
theorem marks_iff_pending (changes : List Change) (k : List Part) :
    (marks changes)[k]? = some .analyzed ↔
      ∃ d, (ChangeSet.ofList changes).pending k = some d ∧ d.isDeletion = false := by
  induction changes using List.reverseRecOn with
  | nil =>
    have : ChangeSet.ofList [] = .empty := rfl
    simp [marks, this, ChangeSet.pending_empty]
  | append_singleton changes c ih =>
    have hpush : ChangeSet.ofList (changes ++ [c]) = (ChangeSet.ofList changes).push c := by
      rw [ChangeSet.ofList, List.foldl_append]
      rfl
    rw [marks_append, getElem?_mark, hpush,
      ChangeSet.exists_pending_push (ChangeSet.indexed_ofList changes), ← ih]
    split
    · cases c.isDeletion <;> simp
    · split <;> simp_all

/-- **Settling a burst keeps which files are analyzed.** -/
theorem analyzed_settle_iff (changes : List Change) (p : Path) :
    (marks (settle changes))[p.parts]? = some .analyzed ↔
      (marks changes)[p.parts]? = some .analyzed := by
  have hindexed := ChangeSet.indexed_ofList changes
  rw [marks_of_orderly (orderly_settle changes), marks_iff_pending]
  constructor
  · rintro ⟨d, hd, hp, hdel⟩
    exact ⟨d, hp ▸ (ChangeSet.mem_toList hindexed).1 hd, hdel⟩
  · rintro ⟨d, hd, hdel⟩
    have hp := ChangeSet.path_of_pending hindexed hd
    exact ⟨d, (ChangeSet.mem_toList hindexed).2 (hp ▸ hd), hp, hdel⟩

end CodeGraph

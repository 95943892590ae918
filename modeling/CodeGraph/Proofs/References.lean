import CodeGraph.Graph.References
import CodeGraph.Proofs.Index

/-!
# The two sides of the references

A file stands with a declaration on one side exactly if the declaration stands with the file on the
other, and recording and removing change both alike.

* `References.Mutual`: the two sides say the same, and a file is spelled with the parts it stands
  under.
* `References.mem_targets_record`, `References.mem_targets_removeFile`: the pairs after a change.
* `References.getElem?_filesOf_record`, `References.getElem?_filesOf_removeFile`: the files of a
  declaration after a change.
* `References.mem_filesOfAll`: the files of several declarations.
-/

namespace CodeGraph

open Std

namespace References

/-- The two sides say the same. -/
structure Mutual (r : References) : Prop where
  proper : Index.Proper r.targets
  mem_filesOf : ∀ {t k}, k ∈ r.filesOf t ↔ t ∈ Index.bucket r.targets k
  spelled : ∀ {t k} {f : Path}, (r.filesOf t)[k]? = some f → f.parts = k

theorem mutual_empty : empty.Mutual where
  proper := Index.proper_empty
  mem_filesOf := by simp [empty, filesOf, Index.not_mem_bucket_empty]
  spelled h := by simp [empty, filesOf] at h

/-! ## Recording a reference -/

theorem mem_targets_record {r : References} {file : Path} {target t : NodeId} {k : List Part} :
    t ∈ Index.bucket (r.record file target).targets k ↔
      (k = file.parts ∧ t = target) ∨ t ∈ Index.bucket r.targets k := Index.mem_bucket_insert

theorem filesOf_record (r : References) (file : Path) (target t : NodeId) :
    (r.record file target).filesOf t =
      if target = t then (r.filesOf t).insertIfNew file.parts file else r.filesOf t := by
  simp only [record, filesOf, ExtTreeMap.getElem?_insert, LawfulEqCmp.compare_eq_iff_eq]
  split
  · rename_i ht
    rw [Option.getD_some, ht]
  · rfl

theorem getElem?_filesOf_record {r : References} {file : Path} {target t : NodeId}
    {k : List Part} {f : Path} (h : ((r.record file target).filesOf t)[k]? = some f) :
    (f = file ∧ k = file.parts) ∨ (r.filesOf t)[k]? = some f := by
  rw [filesOf_record] at h
  split at h
  · rw [ExtTreeMap.getElem?_insertIfNew] at h
    split at h
    · rename_i hk
      exact .inl ⟨(Option.some.inj h).symm, (LawfulEqCmp.compare_eq_iff_eq.1 hk.1).symm⟩
    · exact .inr h
  · exact .inr h

theorem Mutual.record {r : References} (h : r.Mutual) (file : Path) (target : NodeId) :
    (r.record file target).Mutual where
  proper := h.proper.insert _ _
  mem_filesOf {t k} := by
    rw [mem_targets_record, filesOf_record, ← h.mem_filesOf]
    split
    · rename_i ht
      rw [ExtTreeMap.mem_insertIfNew, LawfulEqCmp.compare_eq_iff_eq, eq_comm (a := k),
        eq_comm (a := t), and_iff_left ht]
    · rename_i ht
      rw [or_iff_right fun hk => ht hk.2.symm]
  spelled {t k f} hf := by
    rcases getElem?_filesOf_record hf with ⟨rfl, hk⟩ | hf
    · exact hk.symm
    · exact h.spelled hf

/-! ## Removing a file -/

/-- The files that stand with a declaration. -/
def filesAt (files : ExtTreeMap NodeId (PathMap Path)) (t : NodeId) : PathMap Path :=
  files[t]?.getD ∅

theorem filesAt_eraseFile (files : ExtTreeMap NodeId (PathMap Path)) (key : List Part)
    (target t : NodeId) :
    filesAt (eraseFile files key target) t =
      if target = t then (filesAt files t).erase key else filesAt files t := by
  unfold eraseFile filesAt
  by_cases ht : target = t
  · subst ht
    rw [if_pos rfl]
    cases hf : files[target]? with
    | none => simp [hf]
    | some found =>
      dsimp only
      split
      · rename_i hempty
        simp [ExtTreeMap.isEmpty_iff.1 hempty]
      · simp
  · rw [if_neg ht]
    cases hf : files[target]? with
    | none => rfl
    | some found =>
      dsimp only
      split
      · simp [ExtTreeMap.getElem?_erase, ht]
      · simp [ExtTreeMap.getElem?_insert, ht]

theorem filesAt_foldl_eraseFile (key : List Part) (targets : List NodeId)
    (files : ExtTreeMap NodeId (PathMap Path)) (t : NodeId) :
    filesAt (targets.foldl (fun files target => eraseFile files key target) files) t =
      if t ∈ targets then (filesAt files t).erase key else filesAt files t := by
  induction targets generalizing files with
  | nil => simp
  | cons target targets ih =>
    have htwice : ∀ found : PathMap Path, (found.erase key).erase key = found.erase key := by
      intro found
      apply ExtTreeMap.ext_getElem?
      intro k
      simp only [ExtTreeMap.getElem?_erase]
      split <;> rfl
    rw [List.foldl_cons, ih, filesAt_eraseFile]
    by_cases ht : target = t
    · simp [ht, htwice]
    · simp [ht, Ne.symm ht]

theorem mem_targets_removeFile {r : References} {file : Path} {t : NodeId} {k : List Part} :
    t ∈ Index.bucket (r.removeFile file).targets k ↔
      k ≠ file.parts ∧ t ∈ Index.bucket r.targets k := Index.mem_bucket_dropKey

theorem getElem?_filesOf_removeFile {r : References} (h : r.Mutual) (file : Path) (t : NodeId)
    (k : List Part) :
    ((r.removeFile file).filesOf t)[k]? =
      if file.parts = k then none else (r.filesOf t)[k]? := by
  change (filesAt (List.foldl _ _ _) t)[k]? = _
  rw [filesAt_foldl_eraseFile]
  split
  · rw [ExtTreeMap.getElem?_erase]
    simp only [LawfulEqCmp.compare_eq_iff_eq]
    rfl
  · rename_i ht
    split
    · rename_i hk
      have hnot : k ∉ r.filesOf t := by
        rw [h.mem_filesOf, ← hk, ← Index.mem_values]
        exact ht
      exact ExtTreeMap.getElem?_eq_none hnot
    · rfl

theorem Mutual.removeFile {r : References} (h : r.Mutual) (file : Path) :
    (r.removeFile file).Mutual where
  proper := h.proper.dropKey _
  mem_filesOf {t k} := by
    rw [mem_targets_removeFile, ← h.mem_filesOf, ExtTreeMap.mem_iff_isSome_getElem?,
      getElem?_filesOf_removeFile h, ExtTreeMap.mem_iff_isSome_getElem?]
    by_cases hk : file.parts = k
    · simp [hk]
    · simp [hk, Ne.symm hk]
  spelled {t k f} hf := by
    rw [getElem?_filesOf_removeFile h] at hf
    split at hf
    · cases hf
    · exact h.spelled hf

/-! ## The files of several declarations -/

theorem getElem?_foldl_insertIfNew (l : List (List Part × Path)) (found : PathMap Path)
    (k : List Part) :
    (k ∈ l.foldl (fun found e => found.insertIfNew e.1 e.2) found ↔
      k ∈ l.map Prod.fst ∨ k ∈ found) ∧
    ∀ f, (l.foldl (fun found e => found.insertIfNew e.1 e.2) found)[k]? = some f →
      (k, f) ∈ l ∨ found[k]? = some f := by
  induction l generalizing found with
  | nil => simp
  | cons e l ih =>
    obtain ⟨hmem, hget⟩ := ih (found.insertIfNew e.1 e.2)
    constructor
    · rw [List.foldl_cons, hmem, ExtTreeMap.mem_insertIfNew, LawfulEqCmp.compare_eq_iff_eq,
        List.map_cons, List.mem_cons]
      grind
    · intro f hf
      rcases hget f hf with hl | hnew
      · exact .inl (List.mem_cons_of_mem _ hl)
      · rw [ExtTreeMap.getElem?_insertIfNew] at hnew
        split at hnew
        · rename_i hk
          obtain rfl := LawfulEqCmp.compare_eq_iff_eq.1 hk.1
          obtain rfl := Option.some.inj hnew
          exact .inl List.mem_cons_self
        · exact .inr hnew

theorem foldl_filesOf (r : References) (targets : List NodeId) (found : PathMap Path)
    (k : List Part) :
    (k ∈ targets.foldl (fun found target => (r.filesOf target).foldl
        (fun found key file => found.insertIfNew key file) found) found ↔
      (∃ t ∈ targets, k ∈ r.filesOf t) ∨ k ∈ found) ∧
    ∀ f, (targets.foldl (fun found target => (r.filesOf target).foldl
        (fun found key file => found.insertIfNew key file) found) found)[k]? = some f →
      (∃ t ∈ targets, (r.filesOf t)[k]? = some f) ∨ found[k]? = some f := by
  induction targets generalizing found with
  | nil => simp
  | cons t targets ih =>
    have hfold : (r.filesOf t).foldl (fun found key file => found.insertIfNew key file) found =
        (r.filesOf t).toList.foldl (fun found e => found.insertIfNew e.1 e.2) found :=
      ExtTreeMap.foldl_eq_foldl_toList
    obtain ⟨hmem, hget⟩ := ih ((r.filesOf t).toList.foldl
      (fun found e => found.insertIfNew e.1 e.2) found)
    obtain ⟨hmem', hget'⟩ := getElem?_foldl_insertIfNew (r.filesOf t).toList found k
    rw [List.foldl_cons, hfold]
    constructor
    · rw [hmem, hmem', ExtTreeMap.map_fst_toList_eq_keys, ExtTreeMap.mem_keys]
      simp only [List.mem_cons, exists_eq_or_imp]
      grind
    · intro f hf
      rcases hget f hf with ⟨t', ht', hf⟩ | hf
      · exact .inl ⟨t', List.mem_cons_of_mem _ ht', hf⟩
      · rcases hget' f hf with hf | hf
        · exact .inl ⟨t, List.mem_cons_self, ExtTreeMap.mem_toList_iff_getElem?_eq_some.1 hf⟩
        · exact .inr hf

theorem mem_filesOfAll {r : References} {targets : List NodeId} {k : List Part} :
    k ∈ r.filesOfAll targets ↔ ∃ t ∈ targets, k ∈ r.filesOf t := by
  rw [filesOfAll, (r.foldl_filesOf targets ∅ k).1]
  simp

theorem getElem?_filesOfAll {r : References} {targets : List NodeId} {k : List Part} {f : Path}
    (h : (r.filesOfAll targets)[k]? = some f) : ∃ t ∈ targets, (r.filesOf t)[k]? = some f := by
  rcases (r.foldl_filesOf targets ∅ k).2 f h with h | h
  · exact h
  · simp at h

end References

end CodeGraph

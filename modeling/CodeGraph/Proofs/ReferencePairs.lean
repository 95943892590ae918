import CodeGraph.Proofs.References
import Mathlib.Data.Finset.Card

/-!
# References as pairs

The references say which pairs of a file and a declaration there are, once by file and once by
declaration. After any sequence of operations both sides hold exactly the pairs that the same
sequence leaves in a plain set.

* `References.Operation`, `References.run`: sequences of operations.
* `Edge.reference?`: the pair that an edge stands for.
* `References.Operation.replay`, `References.pairs`: the same sequence on a plain set of pairs.
* `References.Holds`: both sides hold exactly a set of pairs, and no empty set.
* **`References.run_sides_eq_pairs`**: the main statement.
-/

namespace CodeGraph

open Std

/-- The pair of a file and a declaration that an edge stands for: none if the edge is a containment
or carries no file. -/
def Edge.reference? (e : Edge) : Option (List Part × NodeId) :=
  if e.kind = .contains then none else e.file.map fun f => (f.parts, e.target)

theorem Edge.reference?_eq_some {e : Edge} {k : List Part} {t : NodeId} :
    e.reference? = some (k, t) ↔
      e.kind ≠ .contains ∧ (∃ f, e.file = some f ∧ f.parts = k) ∧ e.target = t := by
  unfold reference?
  split
  · simp_all
  · rename_i hk
    simp [hk, ← and_assoc]

namespace References

/-! ## Sequences of operations -/

/-- A change of the references. -/
inductive Operation where
  | record (file : Path) (target : NodeId)
  | recordEdges (edges : List Edge)
  /-- The references of some edges take the place of all others. -/
  | rebuild (edges : List Edge)
  | removeFile (file : Path)
  | clear

/-- The references after an operation. -/
def Operation.apply (r : References) : Operation → References
  | record file target => r.record file target
  | recordEdges edges => r.recordEdges edges
  | rebuild edges => ofEdges edges
  | removeFile file => r.removeFile file
  | clear => empty

/-- The references after operations in order. -/
def run (ops : List Operation) : References := ops.foldl Operation.apply empty

/-- Pairs of a file, by its parts, and a declaration. -/
abbrev Pairs := Finset (List Part × NodeId)

/-- The pairs after an operation: recording adds pairs, and a file goes with its own pairs only. -/
def Operation.replay (s : Pairs) : Operation → Pairs
  | record file target => insert (file.parts, target) s
  | recordEdges edges => s ∪ (edges.filterMap Edge.reference?).toFinset
  | rebuild edges => (edges.filterMap Edge.reference?).toFinset
  | removeFile file => s.filter fun x => x.1 ≠ file.parts
  | clear => ∅

/-- The pairs after operations in order. -/
def pairs (ops : List Operation) : Pairs := ops.foldl Operation.replay ∅

/-! ## What both sides hold -/

/-- No declaration stands with an empty set of files. -/
def Filled (files : ExtTreeMap NodeId (PathMap Path)) : Prop :=
  ∀ (t : NodeId) (found : PathMap Path), files[t]? = some found → found ≠ ∅

/-- Both sides hold exactly some pairs, and no empty set. -/
structure Holds (r : References) (s : Pairs) : Prop where
  referring : r.Mutual
  filled : Filled r.files
  mem_targets : ∀ {k t}, t ∈ Index.bucket r.targets k ↔ (k, t) ∈ s

theorem holds_empty : empty.Holds ∅ where
  referring := mutual_empty
  filled _ _ h := by simp [empty] at h
  mem_targets := by simp [empty, Index.not_mem_bucket_empty]

theorem Filled.eraseFile {files : ExtTreeMap NodeId (PathMap Path)} (h : Filled files)
    (key : List Part) (target : NodeId) : Filled (eraseFile files key target) := by
  intro t found ht
  unfold References.eraseFile at ht
  split at ht
  · exact h t found ht
  · dsimp only at ht
    split at ht
    · rw [ExtTreeMap.getElem?_erase] at ht
      split at ht
      · cases ht
      · exact h t found ht
    · rename_i hrest
      rw [ExtTreeMap.getElem?_insert] at ht
      split at ht
      · cases ht
        rwa [ExtTreeMap.isEmpty_iff] at hrest
      · exact h t found ht

theorem Filled.foldl_eraseFile {files : ExtTreeMap NodeId (PathMap Path)} (h : Filled files)
    (key : List Part) (targets : List NodeId) :
    Filled (targets.foldl (fun files target => References.eraseFile files key target) files) := by
  induction targets generalizing files with
  | nil => exact h
  | cons target targets ih => exact ih (h.eraseFile key target)

namespace Holds

variable {r : References} {s : Pairs} (h : r.Holds s)
include h

theorem record (file : Path) (target : NodeId) :
    (r.record file target).Holds (insert (file.parts, target) s) where
  referring := h.referring.record file target
  filled t found ht := by
    change (r.files.insert target _)[t]? = some found at ht
    rw [ExtTreeMap.getElem?_insert] at ht
    split at ht
    · cases ht
      intro hempty
      have hmem : file.parts ∈ (r.filesOf target).insertIfNew file.parts file := by simp
      simp [hempty] at hmem
    · exact h.filled t found ht
  mem_targets {k t} := by
    rw [mem_targets_record, h.mem_targets, Finset.mem_insert, Prod.mk.injEq]

theorem recordEdges (edges : List Edge) :
    (r.recordEdges edges).Holds (s ∪ (edges.filterMap Edge.reference?).toFinset) := by
  unfold References.recordEdges
  induction edges generalizing r s with
  | nil => simpa using h
  | cons e edges ih =>
    rw [List.foldl_cons, List.filterMap_cons]
    cases hfile : e.file with
    | none =>
      have hnone : e.reference? = none := by simp [Edge.reference?, hfile]
      simpa only [hnone] using ih h
    | some file =>
      by_cases hkind : e.kind = .contains
      · have hnone : e.reference? = none := by simp [Edge.reference?, hkind]
        simpa only [hkind, beq_self_eq_true, if_true, hnone] using ih h
      · have hsome : e.reference? = some (file.parts, e.target) :=
          Edge.reference?_eq_some.2 ⟨hkind, ⟨file, hfile, rfl⟩, rfl⟩
        have hnext := ih (h.record file e.target)
        rw [Finset.insert_union] at hnext
        simpa only [beq_iff_eq, hkind, if_false, hsome, List.toFinset_cons,
          Finset.union_insert] using hnext

theorem removeFile (file : Path) :
    (r.removeFile file).Holds (s.filter fun x => x.1 ≠ file.parts) where
  referring := h.referring.removeFile file
  filled := h.filled.foldl_eraseFile file.parts _
  mem_targets {k t} := by
    rw [mem_targets_removeFile, h.mem_targets, Finset.mem_filter, and_comm]

theorem apply (o : Operation) : (o.apply r).Holds (o.replay s) := by
  cases o with
  | record file target => exact h.record file target
  | recordEdges edges => exact h.recordEdges edges
  | rebuild edges =>
    have hedges := holds_empty.recordEdges edges
    rwa [Finset.empty_union] at hedges
  | removeFile file => exact h.removeFile file
  | clear => exact holds_empty

theorem fileCount : r.fileCount = (s.image Prod.fst).card := by
  have hkeys : r.targets.keys.toFinset = s.image Prod.fst := by
    ext k
    rw [List.mem_toFinset, ExtTreeMap.mem_keys, Index.mem_iff_exists_mem_bucket h.referring.proper]
    simp only [h.mem_targets, Finset.mem_image, Prod.exists]
    rw [exists_comm]
    simp only [exists_eq_right]
  rw [← hkeys, List.toFinset_card_of_nodup ExtTreeMap.nodup_keys, ExtTreeMap.length_keys]
  rfl

end Holds

theorem holds_run (ops : List Operation) : (run ops).Holds (pairs ops) := by
  have hfold : ∀ (r : References) (s : Pairs), r.Holds s →
      (ops.foldl Operation.apply r).Holds (ops.foldl Operation.replay s) := by
    induction ops with
    | nil => exact fun r s h => h
    | cons o ops ih => exact fun r s h => ih _ _ (h.apply o)
  exact hfold empty ∅ holds_empty

/-- **Both sides hold exactly the pairs**: after any sequence of operations a file stands with a
declaration exactly if the declaration stands with the file, and exactly if the pair is left by the
sequence. Neither side holds an empty set, every file is spelled with the parts it stands under,
and the files are counted by the pairs. -/
theorem run_sides_eq_pairs (ops : List Operation) :
    (∀ (f : Path) (n : NodeId),
      (f.parts ∈ (run ops).filesOf n ↔ n ∈ (run ops).targetsOf f) ∧
      (n ∈ (run ops).targetsOf f ↔ (f.parts, n) ∈ pairs ops)) ∧
    (∀ n k (f : Path), ((run ops).filesOf n)[k]? = some f → f.parts = k) ∧
    Index.Proper (run ops).targets ∧ Filled (run ops).files ∧
    (run ops).fileCount = ((pairs ops).image Prod.fst).card := by
  have h := holds_run ops
  refine ⟨fun f n => ?_, fun n k f => h.referring.spelled, h.referring.proper,
    h.filled, h.fileCount⟩
  rw [targetsOf, Index.mem_values, h.referring.mem_filesOf]
  exact ⟨Iff.rfl, h.mem_targets⟩

end References

end CodeGraph

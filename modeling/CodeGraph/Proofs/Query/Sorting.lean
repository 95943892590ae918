import CodeGraph.Query.Order
import Mathlib.Data.Prod.Lex
import Mathlib.Data.String.Basic

/-!
# Sorted results

* `mem_sortBy`, `pairwise_sortBy`: a sorted list has the same members, in order.
* `sourceKey`: what `sourceOrder` compares, as one value of a linear order.
* `pairwise_sortBy_sourceOrder`: declarations with distinct identifiers come in strictly increasing
  order of their keys.
-/

namespace CodeGraph

section

variable {α : Type} (cmp : α → α → Ordering) (l : List α)

theorem perm_sortBy : (sortBy cmp l).Perm l := List.mergeSort_perm _ _

@[simp] theorem mem_sortBy {a : α} : a ∈ sortBy cmp l ↔ a ∈ l := (perm_sortBy cmp l).mem_iff

theorem pairwise_sortBy [Std.TransCmp cmp] : (sortBy cmp l).Pairwise fun a b => (cmp a b).isLE := by
  refine List.pairwise_mergeSort (fun a b c => Std.TransCmp.isLE_trans) (fun a b => ?_) l
  have hswap : cmp b a = (cmp a b).swap := Std.OrientedCmp.eq_swap
  rw [hswap]
  cases cmp a b <;> rfl

end

/-! ## By place in the source -/

/-- What declarations are sorted by: line, column, name and identifier. A line or column that is
absent counts as the greatest number of 32 bits. -/
def sourceKey (n : Node) : ℕ ×ₗ ℕ ×ₗ String ×ₗ String :=
  toLex (placeOf n.startLine, toLex (placeOf n.startColumn, toLex (n.name, n.id)))

theorem sourceOrder_eq (a b : Node) : sourceOrder a b = compare (sourceKey a) (sourceKey b) := by
  simp only [Prod.Lex.compare_def, compareLex, compareOn]
  rfl

instance : Std.TransCmp sourceOrder :=
  inferInstanceAs (Std.TransCmp (compareLex (compareOn fun n : Node => placeOf n.startLine)
    (compareLex (compareOn fun n : Node => placeOf n.startColumn)
      (compareLex (compareOn Node.name) (compareOn Node.id)))))

instance : Std.TransCmp fileOrder :=
  inferInstanceAs (Std.TransCmp (compareLex (compareOn fun n : Node => n.file.parts) sourceOrder))

theorem id_eq_of_sourceKey_eq {a b : Node} (h : sourceKey a = sourceKey b) : a.id = b.id := by
  simp only [sourceKey, toLex_inj, Prod.mk.injEq] at h
  exact h.2.2.2

theorem pairwise_sortBy_sourceOrder {l : List Node} (h : (l.map (·.id)).Nodup) :
    (sortBy sourceOrder l).Pairwise fun a b => sourceKey a < sourceKey b := by
  have hne : (sortBy sourceOrder l).Pairwise fun a b => a.id ≠ b.id :=
    List.pairwise_map.1 (((perm_sortBy sourceOrder l).map Node.id).nodup_iff.2 h)
  refine (pairwise_sortBy sourceOrder l).imp₂ (fun a b hle hne => ?_) hne
  rw [sourceOrder_eq, ← Ordering.ne_gt_iff_isLE] at hle
  exact (compare_le_iff_le.1 hle).lt_of_ne fun heq => hne (id_eq_of_sourceKey_eq heq)

end CodeGraph

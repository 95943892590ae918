import CodeGraph.Graph.Index

/-!
# What an index holds

An index describes a table if it holds each entry of the table under the entry's key, nothing else,
and no empty set. Adding, replacing and removing one entry keep the description.

* `Index.mem_bucket_insert`, `Index.mem_bucket_erase`, `Index.mem_bucket_dropKey`: the values of a
  key after each operation.
* `Index.Proper`: no key holds an empty set.
* `Index.Describes`: an index agrees with a table.
* **`Index.Describes.eq`**: the table determines its index.
-/

set_option linter.unusedSectionVars false

namespace CodeGraph

open Std

/-! ## Tables -/

theorem values_eq_map_toList {α β : Type} {cmp : α → α → Ordering} [TransCmp cmp]
    (t : ExtTreeMap α β cmp) : t.values = t.toList.map Prod.snd := by
  obtain ⟨t⟩ := t
  induction t using ExtDTreeMap.inductionOn with
  | mk t =>
    change t.inner.values = (DTreeMap.Internal.Impl.Const.toList t.inner).map Prod.snd
    rw [DTreeMap.Internal.Impl.values_eq_map_snd,
      DTreeMap.Internal.Impl.Const.toList_eq_toListModel_map]
    simp

theorem mem_values_iff {α β : Type} {cmp : α → α → Ordering} [TransCmp cmp] [LawfulEqCmp cmp]
    {t : ExtTreeMap α β cmp} {b : β} : b ∈ t.values ↔ ∃ a : α, t[a]? = some b := by
  rw [values_eq_map_toList, List.mem_map]
  constructor
  · rintro ⟨⟨a, b'⟩, hb, rfl⟩
    exact ⟨a, ExtTreeMap.mem_toList_iff_getElem?_eq_some.1 hb⟩
  · rintro ⟨a, ha⟩
    exact ⟨(a, b), ExtTreeMap.mem_toList_iff_getElem?_eq_some.2 ha, rfl⟩

theorem map_values_eq_keys {α β : Type} {cmp : α → α → Ordering} [TransCmp cmp] [LawfulEqCmp cmp]
    {t : ExtTreeMap α β cmp} {key : β → α} (h : ∀ {a b}, t[a]? = some b → key b = a) :
    t.values.map key = t.keys := by
  rw [values_eq_map_toList, List.map_map, ← ExtTreeMap.map_fst_toList_eq_keys]
  refine List.map_congr_left fun p hp => ?_
  exact h (ExtTreeMap.mem_toList_iff_getElem?_eq_some.1 hp)

theorem getElem?_foldl_erase {α β : Type} [Ord α] [TransOrd α] [LawfulEqOrd α] [DecidableEq α]
    (keys : List α) (t : ExtTreeMap α β) (a : α) :
    (keys.foldl (fun t k => t.erase k) t)[a]? = if a ∈ keys then none else t[a]? := by
  induction keys generalizing t with
  | nil => simp
  | cons k keys ih =>
    rw [List.foldl_cons, ih]
    simp only [ExtTreeMap.getElem?_erase, LawfulEqCmp.compare_eq_iff_eq, List.mem_cons]
    by_cases h : k = a
    · simp [h]
    · simp [h, Ne.symm h]

namespace Index

variable {κ α β : Type} [Ord κ] [Ord α] [TransOrd κ] [TransOrd α] [LawfulEqOrd κ] [LawfulEqOrd α]

/-! ## The values of a key -/

theorem mem_bucket_iff {index : Index κ α} {k : κ} {a : α} :
    a ∈ bucket index k ↔ ∃ set, index[k]? = some set ∧ a ∈ set := by
  unfold bucket
  cases index[k]? <;> simp

theorem not_mem_bucket_empty (k : κ) (a : α) : a ∉ bucket (∅ : Index κ α) k := by
  simp [bucket]

theorem mem_values {index : Index κ α} {k : κ} {a : α} :
    a ∈ values index k ↔ a ∈ bucket index k := ExtTreeSet.mem_toList

theorem mem_bucket_insert {index : Index κ α} {k k' : κ} {a a' : α} :
    a' ∈ bucket (insert index k a) k' ↔ (k' = k ∧ a' = a) ∨ a' ∈ bucket index k' := by
  simp only [insert, bucket, ExtTreeMap.getElem?_insert, LawfulEqCmp.compare_eq_iff_eq]
  by_cases h : k = k'
  · subst h
    simp only [if_true, Option.getD_some, ExtTreeSet.mem_insert, LawfulEqCmp.compare_eq_iff_eq,
      true_and]
    rw [eq_comm]
  · simp [h, Ne.symm h]

theorem mem_bucket_erase {index : Index κ α} {k k' : κ} {a a' : α} :
    a' ∈ bucket (erase index k a) k' ↔ a' ∈ bucket index k' ∧ ¬ (k' = k ∧ a' = a) := by
  have hrest : a' ∈ (bucket index k).erase a ↔ a' ∈ bucket index k ∧ a' ≠ a := by
    rw [ExtTreeSet.mem_erase, ne_eq, LawfulEqCmp.compare_eq_iff_eq, eq_comm, and_comm]
  by_cases h : k' = k
  · subst h
    rw [erase]
    split
    · rename_i he
      rw [ExtTreeSet.isEmpty_iff] at he
      rw [he] at hrest
      simpa [bucket, ExtTreeMap.getElem?_erase] using hrest
    · simpa [bucket, ExtTreeMap.getElem?_insert] using hrest
  · have hk : ¬ compare k k' = .eq := by
      rw [LawfulEqCmp.compare_eq_iff_eq]
      exact Ne.symm h
    rw [erase]
    split <;> simp [bucket, ExtTreeMap.getElem?_erase, ExtTreeMap.getElem?_insert, hk, h]

theorem mem_bucket_dropKey {index : Index κ α} {k k' : κ} {a : α} :
    a ∈ bucket (dropKey index k) k' ↔ k' ≠ k ∧ a ∈ bucket index k' := by
  simp only [dropKey, bucket, ExtTreeMap.getElem?_erase, LawfulEqCmp.compare_eq_iff_eq]
  by_cases h : k = k'
  · simp [h]
  · simp [h, Ne.symm h]

/-! ## Empty sets -/

/-- No key holds an empty set. -/
def Proper (index : Index κ α) : Prop :=
  ∀ (k : κ) (set : ExtTreeSet α), index[k]? = some set → set ≠ ∅

theorem proper_empty : Proper (∅ : Index κ α) := by
  intro k set h
  simp at h

theorem Proper.insert {index : Index κ α} (h : Proper index) (k : κ) (a : α) :
    Proper (Index.insert index k a) := by
  intro k' set hs
  rw [Index.insert, ExtTreeMap.getElem?_insert] at hs
  split at hs
  · cases hs
    intro he
    have : a ∈ (bucket index k).insert a := by simp
    simp [he] at this
  · exact h k' set hs

theorem Proper.erase {index : Index κ α} (h : Proper index) (k : κ) (a : α) :
    Proper (Index.erase index k a) := by
  intro k' set hs
  rw [Index.erase] at hs
  split at hs
  · rw [ExtTreeMap.getElem?_erase] at hs
    split at hs
    · cases hs
    · exact h k' set hs
  · rename_i he
    rw [ExtTreeMap.getElem?_insert] at hs
    split at hs
    · cases hs
      rwa [ExtTreeSet.isEmpty_iff] at he
    · exact h k' set hs

theorem Proper.dropKey {index : Index κ α} (h : Proper index) (k : κ) :
    Proper (Index.dropKey index k) := by
  intro k' set hs
  rw [Index.dropKey, ExtTreeMap.getElem?_erase] at hs
  split at hs
  · cases hs
  · exact h k' set hs

theorem mem_iff_exists_mem_bucket {index : Index κ α} (h : Proper index) {k : κ} :
    k ∈ index ↔ ∃ a, a ∈ bucket index k := by
  rw [ExtTreeMap.mem_iff_isSome_getElem?, Option.isSome_iff_exists]
  constructor
  · rintro ⟨set, hs⟩
    have hne : ¬ ∀ a, a ∉ set := fun hn =>
      h k set hs (ExtTreeSet.eq_empty_iff_forall_not_mem.2 hn)
    obtain ⟨a, ha⟩ := Classical.not_forall_not.1 hne
    exact ⟨a, mem_bucket_iff.2 ⟨set, hs, ha⟩⟩
  · rintro ⟨a, ha⟩
    obtain ⟨set, hs, -⟩ := mem_bucket_iff.1 ha
    exact ⟨set, hs⟩

/-! ## Optional keys -/

/-- Adds a value to a key, if there is one. -/
def insertAt (index : Index κ α) : Option κ → α → Index κ α
  | some k, a => insert index k a
  | none, _ => index

/-- Takes a value from a key, if there is one. -/
def eraseAt (index : Index κ α) : Option κ → α → Index κ α
  | some k, a => erase index k a
  | none, _ => index

theorem mem_bucket_insertAt {index : Index κ α} {k : Option κ} {k' : κ} {a a' : α} :
    a' ∈ bucket (insertAt index k a) k' ↔ (k = some k' ∧ a' = a) ∨ a' ∈ bucket index k' := by
  cases k with
  | none => simp [insertAt]
  | some k => rw [insertAt, mem_bucket_insert, Option.some.injEq, eq_comm (a := k)]

theorem mem_bucket_eraseAt {index : Index κ α} {k : Option κ} {k' : κ} {a a' : α} :
    a' ∈ bucket (eraseAt index k a) k' ↔ a' ∈ bucket index k' ∧ ¬ (k = some k' ∧ a' = a) := by
  cases k with
  | none => simp [eraseAt]
  | some k => rw [eraseAt, mem_bucket_erase, Option.some.injEq, eq_comm (a := k)]

theorem Proper.insertAt {index : Index κ α} (h : Proper index) (k : Option κ) (a : α) :
    Proper (Index.insertAt index k a) := by
  cases k with
  | none => exact h
  | some k => exact h.insert k a

theorem Proper.eraseAt {index : Index κ α} (h : Proper index) (k : Option κ) (a : α) :
    Proper (Index.eraseAt index k a) := by
  cases k with
  | none => exact h
  | some k => exact h.erase k a

/-! ## Agreement with a table -/

/-- An index holds exactly the entries of a table that have a key, each under its key, and no empty
set. -/
structure Describes (index : Index κ α) (table : ExtTreeMap α β) (key : β → Option κ) : Prop where
  mem_bucket : ∀ k a, a ∈ bucket index k ↔ ∃ b, table[a]? = some b ∧ key b = some k
  proper : Proper index

namespace Describes

variable {index index' : Index κ α} {table : ExtTreeMap α β} {key : β → Option κ}

theorem empty : Describes (∅ : Index κ α) (∅ : ExtTreeMap α β) key where
  mem_bucket k a := by simp [not_mem_bucket_empty]
  proper := proper_empty

/-- The index after an entry was written: the entry stands under its key only. -/
theorem write (h : Describes index table key) {a : α} {b : β} (hp : Proper index')
    (hm : ∀ k a', a' ∈ bucket index' k ↔
      (a' = a ∧ key b = some k) ∨ (a' ≠ a ∧ a' ∈ bucket index k)) :
    Describes index' (table.insert a b) key where
  mem_bucket k a' := by
    rw [hm, h.mem_bucket]
    simp only [ExtTreeMap.getElem?_insert, LawfulEqCmp.compare_eq_iff_eq]
    by_cases ha : a = a'
    · simp [ha]
    · simp [ha, Ne.symm ha]
  proper := hp

theorem insertAt (h : Describes index table key) {a : α} (b : β) (ha : table[a]? = none) :
    Describes (Index.insertAt index (key b) a) (table.insert a b) key := by
  refine h.write (h.proper.insertAt _ _) fun k a' => ?_
  rw [mem_bucket_insertAt]
  have hnot : a ∉ bucket index k := by simp [h.mem_bucket, ha]
  constructor
  · rintro (⟨hk, rfl⟩ | hm)
    · exact .inl ⟨rfl, hk⟩
    · exact .inr ⟨fun he => hnot (he ▸ hm), hm⟩
  · rintro (⟨rfl, hk⟩ | ⟨-, hm⟩)
    · exact .inl ⟨hk, rfl⟩
    · exact .inr hm

theorem insertAt_same (h : Describes index table key) {a : α} {b old : β}
    (ha : table[a]? = some old) (hk : key b = key old) :
    Describes (Index.insertAt index (key b) a) (table.insert a b) key := by
  refine h.write (h.proper.insertAt _ _) fun k a' => ?_
  rw [mem_bucket_insertAt]
  by_cases he : a' = a
  · subst he
    simp [h.mem_bucket, ha, hk]
  · simp [he]

/-- An entry that gets another key: it is added, then taken from its old key. -/
theorem eraseAt_insertAt (h : Describes index table key) {a : α} {b old : β}
    (ha : table[a]? = some old) (hk : key b ≠ key old) :
    Describes (Index.eraseAt (Index.insertAt index (key b) a) (key old) a) (table.insert a b)
      key := by
  refine h.write ((h.proper.insertAt _ _).eraseAt _ _) fun k a' => ?_
  rw [mem_bucket_eraseAt, mem_bucket_insertAt]
  by_cases he : a' = a
  · subst he
    have hb : a' ∈ bucket index k ↔ key old = some k := by simp [h.mem_bucket, ha]
    rw [hb]
    grind
  · simp [he]

theorem insertAt_eraseAt (h : Describes index table key) {a : α} {b old : β}
    (ha : table[a]? = some old) :
    Describes (Index.insertAt (Index.eraseAt index (key old) a) (key b) a) (table.insert a b)
      key := by
  refine h.write ((h.proper.eraseAt _ _).insertAt _ _) fun k a' => ?_
  rw [mem_bucket_insertAt, mem_bucket_eraseAt]
  by_cases he : a' = a
  · subst he
    have hb : a' ∈ bucket index k ↔ key old = some k := by simp [h.mem_bucket, ha]
    rw [hb]
    grind
  · simp [he]

theorem eraseAt (h : Describes index table key) {a : α} {old : β} (ha : table[a]? = some old) :
    Describes (Index.eraseAt index (key old) a) (table.erase a) key where
  mem_bucket k a' := by
    rw [mem_bucket_eraseAt, h.mem_bucket]
    simp only [ExtTreeMap.getElem?_erase, LawfulEqCmp.compare_eq_iff_eq]
    by_cases he : a = a'
    · subst he
      simp [ha]
    · simp [he, Ne.symm he]
  proper := h.proper.eraseAt _ _

theorem eq (h : Describes index table key) (h' : Describes index' table key) : index = index' := by
  have hb : ∀ k, bucket index k = bucket index' k := by
    intro k
    apply ExtTreeSet.ext_mem
    intro a
    rw [h.mem_bucket, h'.mem_bucket]
  apply ExtTreeMap.ext_getElem?
  intro k
  have hk : k ∈ index ↔ k ∈ index' := by
    rw [mem_iff_exists_mem_bucket h.proper, mem_iff_exists_mem_bucket h'.proper, hb]
  have hbk := hb k
  unfold bucket at hbk
  simp only [ExtTreeMap.mem_iff_isSome_getElem?] at hk
  cases h1 : index[k]? <;> cases h2 : index'[k]? <;> simp_all

end Describes

end Index

end CodeGraph

import CodeGraph.Proofs.SettledOrder

/-!
# Slots and positions

A change set keeps its changes in slots, and beside them the slot of each pending path. However
changes are recorded, taken out and put back, the two describe the same changes.

* `ChangeSet.Faithful`: positions name exactly the slots in use, each of them once, and a rename has
  a slot before that of any change of its source.
* `ChangeSet.perm_keys_positions`: the paths with a position are those of the pending changes.
* **`ChangeSet.faithful_ofList`**: every set that changes were recorded in is faithful.
-/

namespace CodeGraph

open Std

namespace ChangeSet

/-- The positions of a change set are right about its slots. -/
structure Faithful (s : ChangeSet) : Prop where
  /-- A path has a position exactly if the slot there exists and holds a change of it. -/
  position_iff : ∀ (p : Path) (i : Nat), s.positions[p.parts]? = some i ↔
    ∃ (h : i < s.slots.size) (c : Change), s.slots[i] = some c ∧ c.path.same p = true
  /-- A slot in use is the position of one path. -/
  indexed_once : ∀ (i : Nat) (h : i < s.slots.size) (c : Change), s.slots[i] = some c →
    ∃! k : List Part, s.positions[k]? = some i
  /-- No two changes are of one path. -/
  distinct : s.toList.Pairwise fun a b => a.path.same b.path = false
  size_eq : s.size = s.toList.length
  /-- A look-up reads a slot that exists. -/
  position_lt : ∀ (p : Path) (i : Nat), s.positions[p.parts]? = some i → i < s.slots.size
  /-- A look-up gives the one change of the path, if there is one. -/
  get?_iff : ∀ (p : Path) (c : Change),
    s.get? p = some c ↔ c ∈ s.toList ∧ c.path.same p = true
  /-- The slot of a rename is no later than that of a change of its source. -/
  rename_first : ∀ (i j : Nat) (c d : Change) (source : Path), s.slots[i]? = some (some c) →
    c.source? = some source → s.slots[j]? = some (some d) → d.path.same source = true → i ≤ j

section View

variable {s : ChangeSet} (h : s.Indexed)
include h

theorem position_iff_getElem {k : List Part} {i : Nat} :
    s.positions[k]? = some i ↔
      ∃ (hi : i < s.slots.size) (c : Change), s.slots[i] = some c ∧ c.path.parts = k := by
  rw [h k i]
  constructor
  · rintro ⟨c, hc, hk⟩
    obtain ⟨hi, hc⟩ := Array.getElem?_eq_some_iff.1 hc
    exact ⟨hi, c, hc, hk⟩
  · rintro ⟨hi, c, hc, hk⟩
    exact ⟨c, Array.getElem?_eq_some_iff.2 ⟨hi, hc⟩, hk⟩

theorem mem_keys_positions {k : List Part} :
    k ∈ s.positions.keys ↔ k ∈ s.toList.map (·.path.parts) := by
  rw [ExtTreeMap.mem_keys, ExtTreeMap.mem_iff_isSome_getElem?, Option.isSome_iff_exists,
    List.mem_map]
  constructor
  · rintro ⟨i, hi⟩
    obtain ⟨c, -, hk, hc⟩ := slot_of_position h hi
    exact ⟨c, (mem_toList h).2 (hk ▸ hc), hk⟩
  · rintro ⟨c, hc, rfl⟩
    obtain ⟨i, hslot, -⟩ := (pending_eq_some_iff h).1 ((mem_toList h).1 hc)
    exact ⟨i, (h _ i).2 ⟨c, hslot, rfl⟩⟩

theorem perm_keys_positions (ho : s.Ordered) :
    s.positions.keys.Perm (s.toList.map (·.path.parts)) :=
  (List.perm_ext_iff_of_nodup ExtTreeMap.nodup_keys (orderly_toList h ho).nodup_paths).2
    fun _ => mem_keys_positions h

theorem get?_eq_some_iff {p : Path} {c : Change} :
    s.get? p = some c ↔ c ∈ s.toList ∧ c.path.parts = p.parts := by
  change s.pending p.parts = some c ↔ _
  rw [mem_toList h]
  constructor
  · intro hc
    have hp := path_of_pending h hc
    exact ⟨hp ▸ hc, hp⟩
  · rintro ⟨hc, hp⟩
    exact hp ▸ hc

/-- Where slots and positions agree and renames stand in order, the set is faithful. -/
theorem faithful_of_ordered (ho : s.Ordered) : s.Faithful where
  position_iff p i := by
    simp only [position_iff_getElem h, Path.same_iff]
  indexed_once i hi c hc := by
    refine ⟨c.path.parts, (position_iff_getElem h).2 ⟨hi, c, hc, rfl⟩, fun k hk => ?_⟩
    obtain ⟨_, d, hd, rfl⟩ := (position_iff_getElem h).1 hk
    obtain rfl : d = c := Option.some.inj (hd.symm.trans hc)
    rfl
  distinct := by
    refine (orderly_toList h ho).imp fun hbefore => ?_
    rw [Bool.eq_false_iff, ne_eq, Path.same_iff]
    exact hbefore.1
  size_eq := by
    rw [size, ← ExtTreeMap.length_keys, (perm_keys_positions h ho).length_eq, List.length_map]
  position_lt p i hp := ((position_iff_getElem h).1 hp).1
  get?_iff p c := by rw [get?_eq_some_iff h, Path.same_iff]
  rename_first i j c d source hc hsource hd hpath := by
    by_contra hlt
    refine ho j i d c (Nat.lt_of_not_le hlt) hd hc ?_
    rw [Change.sourceKey?, hsource, Option.map_some, Path.same_iff.1 hpath]

end View

/-- **Slots and positions describe the same changes.** However many changes were recorded, a path
has a position exactly if the slot there holds a change of it. So each slot in use is indexed once,
the settled changes have distinct paths and are as many as the set says, a look-up stays within the
slots and finds the change of a path exactly if one is pending, and no rename stands after a change
of its source. -/
theorem faithful_ofList (changes : List Change) : (ofList changes).Faithful :=
  faithful_of_ordered (indexed_ofList changes) (ordered_ofList changes)

end ChangeSet

end CodeGraph

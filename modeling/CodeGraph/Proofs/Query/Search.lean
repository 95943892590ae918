import Mathlib.Data.List.Nodup
import Mathlib.Data.Nat.Find
import Mathlib.Logic.Relation
import Mathlib.Order.Basic

/-!
# Breadth-first search of a relation

A search from a root keeps the elements it has done with and a queue of those it has met but not
looked at, each with a number of steps from the root. Whether it goes on from an element depends on
that number (`more`).

* `StepsTo`, `Distance`: walks of a length, and the length of the shortest ones; some walk exists
  (`exists_stepsTo_iff`) exactly if there is a shortest one (`exists_distance_iff`).
* `Frontier`: what holds of the two lists, kept by one turn of the search (`Frontier.expand`,
  `Frontier.stop`).
* **`Frontier.mem_iff_distance`**: with an empty queue the search has met exactly the elements at a
  distance it can reach, each with its distance.
* `Frontier.mem_of_reaches`: one that found nothing new where it could go no further has met all
  that can be reached.
-/

namespace CodeGraph

variable {α : Type}

/-- A walk of `k` steps leads from the first element to the second. -/
def StepsTo (R : α → α → Prop) : (k : Nat) → α → α → Prop
  | 0, a, b => a = b
  | k + 1, a, b => ∃ c, StepsTo R k a c ∧ R c b

/-- The shortest walks from the first element to the second have `k` steps. -/
def Distance (R : α → α → Prop) (a b : α) (k : Nat) : Prop :=
  StepsTo R k a b ∧ ∀ j, StepsTo R j a b → k ≤ j

namespace StepsTo

variable {R : α → α → Prop}

theorem cons {k : Nat} {a b c : α} (hab : R a b) (hbc : StepsTo R k b c) :
    StepsTo R (k + 1) a c := by
  induction k generalizing c with
  | zero =>
    obtain rfl : b = c := hbc
    exact ⟨a, rfl, hab⟩
  | succ k ih =>
    obtain ⟨d, hbd, hdc⟩ := hbc
    exact ⟨d, ih hbd, hdc⟩

theorem reverse {k : Nat} {a b : α} (h : StepsTo R k a b) : StepsTo (flip R) k b a := by
  induction k generalizing b with
  | zero => exact Eq.symm h
  | succ k ih =>
    obtain ⟨c, hac, hcb⟩ := h
    exact cons hcb (ih hac)

theorem map {β : Type} {S : β → β → Prop} {f : α → β} (hf : ∀ a b, R a b → S (f a) (f b)) {k : Nat}
    {a b : α} (h : StepsTo R k a b) : StepsTo S k (f a) (f b) := by
  induction k generalizing b with
  | zero => exact congrArg f h
  | succ k ih =>
    obtain ⟨c, hac, hcb⟩ := h
    exact ⟨f c, ih hac, hf c b hcb⟩

theorem mono {S : α → α → Prop} (hRS : ∀ a b, R a b → S a b) {k : Nat} {a b : α}
    (h : StepsTo R k a b) : StepsTo S k a b :=
  h.map (f := id) hRS

theorem succ_iff {k : Nat} {a c : α} : StepsTo R (k + 1) a c ↔ ∃ b, R a b ∧ StepsTo R k b c := by
  refine ⟨fun h => ?_, fun ⟨_, hab, hbc⟩ => cons hab hbc⟩
  induction k generalizing c with
  | zero =>
    obtain ⟨a', rfl, hac⟩ := h
    exact ⟨c, hac, rfl⟩
  | succ k ih =>
    obtain ⟨d, had, hdc⟩ := h
    obtain ⟨b, hab, hbd⟩ := ih had
    exact ⟨b, hab, d, hbd, hdc⟩

/-- Where steps to one element come from one element, the longer of two walks to it leads through
the start of the shorter. -/
theorem of_add (hR : ∀ a a' b, R a b → R a' b → a = a') {j k : Nat} {a a' b : α}
    (h : StepsTo R j a b) (h' : StepsTo R (k + j) a' b) : StepsTo R k a' a := by
  induction j generalizing b with
  | zero => exact (show a = b from h) ▸ h'
  | succ j ih =>
    obtain ⟨c, hac, hcb⟩ := h
    obtain ⟨c', hac', hcb'⟩ := h'
    obtain rfl := hR c c' b hcb hcb'
    exact ih hac hac'

theorem height_le {f : α → Nat} (hf : ∀ a b, R a b → f b ≤ f a + 1) {k : Nat} {a b : α}
    (h : StepsTo R k a b) : f b ≤ f a + k := by
  induction k generalizing b with
  | zero => exact (show a = b from h) ▸ Nat.le_refl _
  | succ k ih =>
    obtain ⟨c, hac, hcb⟩ := h
    have := ih hac
    have := hf c b hcb
    omega

end StepsTo

namespace Distance

variable {R : α → α → Prop} {a b : α} {k : Nat}

theorem reverse (h : Distance R a b k) : Distance (flip R) b a k :=
  ⟨h.1.reverse, fun j hj => h.2 j hj.reverse⟩

theorem pos_iff (h : Distance R a b k) : 0 < k ↔ b ≠ a := by
  constructor
  · rintro hk rfl
    exact absurd (h.2 0 rfl) (by omega)
  · intro hne
    refine Nat.pos_of_ne_zero ?_
    rintro rfl
    exact hne h.1.symm

end Distance

theorem exists_stepsTo_iff {R : α → α → Prop} {a b : α} :
    (∃ k, StepsTo R k a b) ↔ Relation.ReflTransGen R a b := by
  constructor
  · rintro ⟨k, h⟩
    induction k generalizing b with
    | zero => exact (show a = b from h) ▸ .refl
    | succ k ih =>
      obtain ⟨c, hac, hcb⟩ := h
      exact (ih hac).tail hcb
  · intro h
    induction h with
    | refl => exact ⟨0, rfl⟩
    | tail _ hcb ih =>
      obtain ⟨k, hk⟩ := ih
      exact ⟨k + 1, _, hk, hcb⟩

theorem exists_distance_iff {R : α → α → Prop} {a b : α} :
    (∃ k, Distance R a b k) ↔ Relation.ReflTransGen R a b := by
  classical
  rw [← exists_stepsTo_iff]
  constructor
  · rintro ⟨k, hk, -⟩
    exact ⟨k, hk⟩
  · intro h
    exact ⟨Nat.find h, Nat.find_spec h, fun j hj => Nat.find_min' h hj⟩

/-! ## The two lists of a search -/

/-- The invariant of a breadth-first search. -/
structure Frontier (R : α → α → Prop) (more : Nat → Prop) (root : α)
    (done queue : List (α × Nat)) : Prop where
  root_mem : (root, 0) ∈ done ++ queue
  /-- No element is met twice. -/
  once : ((done ++ queue).map (·.1)).Nodup
  /-- A number of steps is that of some walk, and the search may go that far. -/
  sound : ∀ p ∈ done ++ queue, StepsTo R p.2 root p.1 ∧ ∀ j < p.2, more j
  /-- What lies one step beyond an element that is done has been met, at most one step later. -/
  closed : ∀ p ∈ done, more p.2 → ∀ b, R p.1 b → ∃ j ≤ p.2 + 1, (b, j) ∈ done ++ queue
  /-- The elements were met in the order of their numbers of steps. -/
  ordered : (done ++ queue).Pairwise fun p q => p.2 ≤ q.2
  /-- Nothing met is more than one step beyond what is queued. -/
  near : ∀ q ∈ queue, ∀ p ∈ done ++ queue, p.2 ≤ q.2 + 1

namespace Frontier

variable {R : α → α → Prop} {more : Nat → Prop} {root : α} {done queue : List (α × Nat)}

theorem start (R : α → α → Prop) (more : Nat → Prop) (root : α) :
    Frontier R more root [] [(root, 0)] where
  root_mem := List.mem_singleton_self _
  once := List.nodup_singleton _
  sound := by
    simp only [List.nil_append, List.mem_singleton, forall_eq]
    exact ⟨rfl, fun j hj => absurd hj (Nat.not_lt_zero j)⟩
  closed := by simp
  ordered := List.pairwise_singleton _ _
  near := by simp

theorem stop {a : α} {l : Nat} (h : Frontier R more root done ((a, l) :: queue))
    (hend : more l → ∀ b, ¬ R a b) :
    Frontier R more root (done ++ [(a, l)]) queue := by
  have happ : done ++ [(a, l)] ++ queue = done ++ (a, l) :: queue := by simp
  refine ⟨happ ▸ h.root_mem, happ ▸ h.once, happ ▸ h.sound, ?_, happ ▸ h.ordered, ?_⟩
  · intro p hp hmore
    rw [happ]
    rcases List.mem_append.1 hp with hp | hp
    · exact h.closed p hp hmore
    · obtain rfl := List.mem_singleton.1 hp
      exact fun b hb => absurd hb (hend hmore b)
  · intro q hq
    rw [happ]
    exact h.near q (List.mem_cons_of_mem _ hq)

/-- The elements one step beyond the first of the queue that were not met before are queued, one
step further. -/
theorem expand {a : α} {l : Nat} {fresh : List α}
    (h : Frontier R more root done ((a, l) :: queue)) (hl : more l) (hnd : fresh.Nodup)
    (hfresh : ∀ b, b ∈ fresh ↔ R a b ∧ b ∉ (done ++ (a, l) :: queue).map (·.1)) :
    Frontier R more root (done ++ [(a, l)]) (queue ++ fresh.map (·, l + 1)) := by
  have happ : done ++ [(a, l)] ++ (queue ++ fresh.map (·, l + 1)) =
      (done ++ (a, l) :: queue) ++ fresh.map (·, l + 1) := by simp
  have ha : (a, l) ∈ done ++ (a, l) :: queue := by simp
  have hle : ∀ p ∈ done ++ (a, l) :: queue, p.2 ≤ l + 1 := h.near (a, l) (by simp)
  -- what stands in the queue behind the first element is at least as far from the root
  have hge : ∀ q ∈ queue, l ≤ q.2 := by
    have hq := (List.pairwise_append.1 h.ordered).2.1
    exact (List.pairwise_cons.1 hq).1
  constructor
  case root_mem =>
    rw [happ]
    exact List.mem_append_left _ h.root_mem
  case once =>
    have hmap : (fresh.map (·, l + 1)).map (·.1) = fresh := by simp [Function.comp_def]
    rw [happ, List.map_append, hmap]
    exact List.Nodup.append h.once hnd fun b hb hb' => ((hfresh b).1 hb').2 hb
  case sound =>
    intro p hp
    rw [happ] at hp
    rcases List.mem_append.1 hp with hp | hp
    · exact h.sound p hp
    · obtain ⟨b, hb, rfl⟩ := List.mem_map.1 hp
      have hs := h.sound (a, l) ha
      refine ⟨⟨a, hs.1, ((hfresh b).1 hb).1⟩, fun j hj => ?_⟩
      rcases Nat.lt_succ_iff_lt_or_eq.1 hj with hj | rfl
      · exact hs.2 j hj
      · exact hl
  case closed =>
    intro p hp hmore b hb
    rw [happ]
    rcases List.mem_append.1 hp with hp | hp
    · obtain ⟨j, hj, hmem⟩ := h.closed p hp hmore b hb
      exact ⟨j, hj, List.mem_append_left _ hmem⟩
    · obtain rfl := List.mem_singleton.1 hp
      by_cases hmet : b ∈ (done ++ (a, l) :: queue).map (·.1)
      · obtain ⟨⟨b, j⟩, hmem, rfl⟩ := List.mem_map.1 hmet
        exact ⟨j, hle _ hmem, List.mem_append_left _ hmem⟩
      · have hb' : b ∈ fresh := (hfresh b).2 ⟨hb, hmet⟩
        exact ⟨l + 1, Nat.le_refl _, List.mem_append_right _ (List.mem_map_of_mem hb')⟩
  case ordered =>
    rw [happ]
    refine List.pairwise_append.2 ⟨h.ordered, ?_, ?_⟩
    · exact List.pairwise_map.2 (List.pairwise_of_forall fun _ _ => Nat.le_refl _)
    · intro p hp q hq
      obtain ⟨b, -, rfl⟩ := List.mem_map.1 hq
      exact hle p hp
  case near =>
    intro q hq p hp
    have hq' : l ≤ q.2 := by
      rcases List.mem_append.1 hq with hq | hq
      · exact hge q hq
      · obtain ⟨b, -, rfl⟩ := List.mem_map.1 hq
        exact Nat.le_succ l
    rw [happ] at hp
    have hp' : p.2 ≤ l + 1 := by
      rcases List.mem_append.1 hp with hp | hp
      · exact hle p hp
      · obtain ⟨b, -, rfl⟩ := List.mem_map.1 hp
        exact Nat.le_refl _
    omega

/-! ## What a search has met -/

theorem eq_root_of_zero_mem (h : Frontier R more root done queue) {a : α}
    (ha : (a, 0) ∈ done ++ queue) : a = root :=
  (h.sound _ ha).1.symm

theorem pos_of_mem_queue (h : Frontier R more root done queue) (hroot : (root, 0) ∈ done)
    {p : α × Nat} (hp : p ∈ queue) : 0 < p.2 := by
  refine Nat.pos_of_ne_zero fun hzero => ?_
  have hp' : p.1 = root := h.eq_root_of_zero_mem (hzero ▸ List.mem_append_right _ hp)
  have hdisj := (List.nodup_append.1 (List.map_append ▸ h.once)).2.2
  exact hdisj root (List.mem_map_of_mem hroot) p.1 (List.mem_map_of_mem hp) hp'.symm

theorem steps_unique (h : Frontier R more root done queue) {a : α} {j k : Nat}
    (hj : (a, j) ∈ done ++ queue) (hk : (a, k) ∈ done ++ queue) : j = k := by
  have := List.inj_on_of_nodup_map h.once hj hk rfl
  exact (Prod.ext_iff.1 this).2

theorem exists_mem_of_stepsTo (h : Frontier R more root done []) {k : Nat} {a : α}
    (ha : StepsTo R k root a) (hk : ∀ j < k, more j) : ∃ i ≤ k, (a, i) ∈ done := by
  induction k generalizing a with
  | zero =>
    obtain rfl : root = a := ha
    exact ⟨0, Nat.le_refl 0, by simpa using h.root_mem⟩
  | succ k ih =>
    obtain ⟨c, hc, hca⟩ := ha
    obtain ⟨i, hi, hmem⟩ := ih hc fun j hj => hk j (by omega)
    obtain ⟨j, hj, hmem'⟩ := h.closed (c, i) hmem (hk i (by omega)) a hca
    exact ⟨j, by omega, by simpa using hmem'⟩

/-- A search that found nothing new where it could go no further has met all that can be reached. -/
theorem mem_of_reaches (h : Frontier R more root done [])
    (hend : ∀ p ∈ done, ¬ more p.2 → ∀ b, R p.1 b → b ∈ done.map (·.1)) {a : α}
    (ha : Relation.ReflTransGen R root a) : a ∈ done.map (·.1) := by
  induction ha with
  | refl =>
    have hroot := h.root_mem
    rw [List.append_nil] at hroot
    exact List.mem_map_of_mem hroot
  | tail _ hcb ih =>
    obtain ⟨p, hp, rfl⟩ := List.mem_map.1 ih
    by_cases hmore : more p.2
    · obtain ⟨j, -, hj⟩ := h.closed p hp hmore _ hcb
      rw [List.append_nil] at hj
      exact List.mem_map_of_mem hj
    · exact hend p hp hmore _ hcb

/-- **A finished search has met exactly the elements at a distance it can reach**, each with its
distance. -/
theorem mem_iff_distance (h : Frontier R more root done []) {a : α} {k : Nat} :
    (a, k) ∈ done ↔ Distance R root a k ∧ ∀ j < k, more j := by
  have hnil : done ++ [] = done := List.append_nil done
  constructor
  · intro ha
    have hs := h.sound (a, k) (hnil.symm ▸ ha)
    refine ⟨⟨hs.1, fun j hj => ?_⟩, hs.2⟩
    by_contra hlt
    obtain ⟨i, hi, hmem⟩ := h.exists_mem_of_stepsTo hj fun i hi => hs.2 i (by omega)
    have := h.steps_unique (hnil.symm ▸ hmem) (hnil.symm ▸ ha)
    omega
  · rintro ⟨hd, hmore⟩
    obtain ⟨i, hi, hmem⟩ := h.exists_mem_of_stepsTo hd.1 hmore
    have hki := hd.2 i (h.sound (a, i) (hnil.symm ▸ hmem)).1
    obtain rfl : i = k := by omega
    exact hmem

theorem mem_iff_reaches (h : Frontier R more root done []) (hmore : ∀ k, more k) {a : α} :
    a ∈ done.map (·.1) ↔ Relation.ReflTransGen R root a := by
  rw [← exists_distance_iff]
  constructor
  · intro ha
    obtain ⟨⟨a, k⟩, hp, rfl⟩ := List.mem_map.1 ha
    exact ⟨k, (h.mem_iff_distance.1 hp).1⟩
  · rintro ⟨k, hk⟩
    exact List.mem_map_of_mem (h.mem_iff_distance.2 ⟨hk, fun j _ => hmore j⟩)

theorem mem_iff_distance_pos {met : List (α × Nat)}
    (h : Frontier R more root ((root, 0) :: met) []) {a : α} {k : Nat} :
    (a, k) ∈ met ↔ 0 < k ∧ Distance R root a k ∧ ∀ j < k, more j := by
  rw [← h.mem_iff_distance, List.mem_cons]
  constructor
  · intro ha
    refine ⟨Nat.pos_of_ne_zero ?_, Or.inr ha⟩
    rintro rfl
    -- only the root is met without a step, and it is met once
    obtain rfl : a = root := h.eq_root_of_zero_mem (by simp [ha])
    have honce : (a :: met.map (·.1)).Nodup := by
      simpa only [List.append_nil, List.map_cons] using h.once
    exact (List.nodup_cons.1 honce).1 (List.mem_map_of_mem ha)
  · rintro ⟨hk, ha | ha⟩
    · cases ha
      exact absurd hk (Nat.lt_irrefl 0)
    · exact ha

end Frontier

end CodeGraph

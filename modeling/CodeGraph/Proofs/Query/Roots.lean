import CodeGraph.Proofs.Query.Search
import Mathlib.Order.Nat

/-!
# Breadth-first search from several roots

A search that starts with several elements in its queue is a search from one element above them all,
which is done with before the first turn.

* `DistanceFrom`: the length of the shortest walks from the roots.
* `Crowned`: the relation with an element above the roots (`distance_crowned`).
* `FrontierFrom`: what holds of the two lists of a search, kept by one turn (`FrontierFrom.expand`,
  `FrontierFrom.stop`).
* **`FrontierFrom.mem_iff`**: a finished search has met what is at a distance up to the greatest;
  one that nowhere came to it has met all that can be reached (`FrontierFrom.mem_of_reaches`).
-/

namespace CodeGraph

variable {α : Type} {R : α → α → Prop} {IsRoot : α → Prop}

/-- The shortest walks from the roots to an element have `k` steps. -/
def DistanceFrom (R : α → α → Prop) (IsRoot : α → Prop) (b : α) (k : Nat) : Prop :=
  (∃ a, IsRoot a ∧ StepsTo R k a b) ∧ ∀ a j, IsRoot a → StepsTo R j a b → k ≤ j

theorem exists_distanceFrom_le {a b : α} {k : Nat} (ha : IsRoot a) (hab : StepsTo R k a b) :
    ∃ j ≤ k, DistanceFrom R IsRoot b j := by
  classical
  have hsome : ∃ j, ∃ a, IsRoot a ∧ StepsTo R j a b := ⟨k, a, ha, hab⟩
  exact ⟨Nat.find hsome, Nat.find_min' hsome ⟨a, ha, hab⟩, Nat.find_spec hsome,
    fun a j ha hab => Nat.find_min' hsome ⟨a, ha, hab⟩⟩

/-! ## An element above the roots -/

/-- The steps of a relation, and steps to the roots from one element more. -/
inductive Crowned (R : α → α → Prop) (IsRoot : α → Prop) : Option α → Option α → Prop
  | root {a : α} (ha : IsRoot a) : Crowned R IsRoot none (some a)
  | step {a b : α} (hab : R a b) : Crowned R IsRoot (some a) (some b)

theorem crowned_none {b : α} : Crowned R IsRoot none (some b) ↔ IsRoot b :=
  ⟨fun | .root hb => hb, .root⟩

theorem crowned_some {a b : α} : Crowned R IsRoot (some a) (some b) ↔ R a b :=
  ⟨fun | .step hab => hab, .step⟩

theorem stepsTo_crowned_some {a : α} {c : Option α} {k : Nat} :
    StepsTo (Crowned R IsRoot) k (some a) c ↔ ∃ b, c = some b ∧ StepsTo R k a b := by
  constructor
  · intro h
    induction k generalizing c with
    | zero => exact ⟨a, Eq.symm h, rfl⟩
    | succ k ih =>
      obtain ⟨d, had, hdc⟩ := h
      obtain ⟨b, rfl, hab⟩ := ih had
      cases hdc with
      | step hbc => exact ⟨_, rfl, b, hab, hbc⟩
  · rintro ⟨b, rfl, hab⟩
    exact hab.map fun _ _ => .step

theorem stepsTo_crowned {b : α} {k : Nat} :
    StepsTo (Crowned R IsRoot) (k + 1) none (some b) ↔ ∃ a, IsRoot a ∧ StepsTo R k a b := by
  rw [StepsTo.succ_iff]
  constructor
  · rintro ⟨_, ⟨ha⟩, hab⟩
    obtain ⟨_, ⟨⟩, hab⟩ := stepsTo_crowned_some.1 hab
    exact ⟨_, ha, hab⟩
  · rintro ⟨a, ha, hab⟩
    exact ⟨some a, .root ha, stepsTo_crowned_some.2 ⟨b, rfl, hab⟩⟩

theorem distance_crowned {b : α} {k : Nat} :
    Distance (Crowned R IsRoot) none (some b) (k + 1) ↔ DistanceFrom R IsRoot b k := by
  rw [Distance, DistanceFrom, stepsTo_crowned]
  refine and_congr_right fun _ => ⟨fun h a j ha hab => ?_, fun h j hj => ?_⟩
  · exact Nat.le_of_succ_le_succ (h (j + 1) (stepsTo_crowned.2 ⟨a, ha, hab⟩))
  · cases j with
    | zero => cases hj
    | succ j =>
      obtain ⟨a, ha, hab⟩ := stepsTo_crowned.1 hj
      exact Nat.succ_le_succ (h a j ha hab)

/-! ## The two lists of a search -/

/-- An element with its number of steps, as seen from above the roots. -/
def below (p : α × Nat) : Option α × Nat := (some p.1, p.2 + 1)

/-- The invariant of a breadth-first search from several roots down to a depth. -/
def FrontierFrom (R : α → α → Prop) (IsRoot : α → Prop) (maxDepth : Nat)
    (done queue : List (α × Nat)) : Prop :=
  Frontier (Crowned R IsRoot) (· < maxDepth + 1) none ((none, 0) :: done.map below)
    (queue.map below)

namespace FrontierFrom

variable {maxDepth : Nat} {done queue : List (α × Nat)} {a : α} {l : Nat}

theorem mem_map_below {l : List (α × Nat)} {p : α × Nat} : below p ∈ l.map below ↔ p ∈ l := by
  refine ⟨fun h => ?_, List.mem_map_of_mem⟩
  obtain ⟨q, hq, heq⟩ := List.mem_map.1 h
  obtain ⟨hfst, hsnd⟩ := Prod.ext_iff.1 heq
  obtain rfl : q = p := Prod.ext (Option.some_inj.1 hfst) (Nat.succ_inj.1 hsnd)
  exact hq

theorem map_fst_below (l : List (α × Nat)) :
    (l.map below).map (·.1) = (l.map (·.1)).map some := by
  rw [List.map_map, List.map_map]
  rfl

theorem map_fst_append (done queue : List (α × Nat)) :
    (((none, 0) :: done.map below) ++ queue.map below).map (·.1) =
      none :: ((done ++ queue).map (·.1)).map some := by
  rw [List.cons_append, ← List.map_append, List.map_cons, map_fst_below]

theorem once (h : FrontierFrom R IsRoot maxDepth done queue) :
    ((done ++ queue).map (·.1)).Nodup := by
  have honce := Frontier.once h
  rw [map_fst_append, List.nodup_cons] at honce
  exact honce.2.of_map some

theorem start {roots : List α} (hnd : roots.Nodup) (hroots : ∀ a, a ∈ roots ↔ IsRoot a) :
    FrontierFrom R IsRoot maxDepth [] (roots.map (·, 0)) := by
  have hnone : ∀ b,
      b ∈ roots.map some ↔ Crowned R IsRoot none b ∧ b ∉ [(none, 0)].map Prod.fst := by
    intro b
    cases b with
    | none => simp
    | some b => simp [crowned_none, hroots]
  -- the first turn is that of the element above: it takes up the roots
  have h := (Frontier.start (Crowned R IsRoot) (· < maxDepth + 1) none).expand
    (Nat.succ_pos maxDepth) (hnd.map fun _ _ => Option.some.inj) hnone
  have hqueue : (roots.map (·, 0)).map below = (roots.map some).map (·, 0 + 1) := by
    rw [List.map_map, List.map_map]
    rfl
  rw [FrontierFrom, hqueue]
  exact h

theorem stop (h : FrontierFrom R IsRoot maxDepth done ((a, l) :: queue)) (hl : ¬ l < maxDepth) :
    FrontierFrom R IsRoot maxDepth (done ++ [(a, l)]) queue := by
  have hstop := Frontier.stop (a := some a) (l := l + 1) h fun hmore =>
    absurd (Nat.lt_of_succ_lt_succ hmore) hl
  rw [FrontierFrom, List.map_append]
  exact hstop

theorem expand {fresh : List α} (h : FrontierFrom R IsRoot maxDepth done ((a, l) :: queue))
    (hl : l < maxDepth) (hnd : fresh.Nodup)
    (hfresh : ∀ b, b ∈ fresh ↔ R a b ∧ b ∉ (done ++ (a, l) :: queue).map (·.1)) :
    FrontierFrom R IsRoot maxDepth (done ++ [(a, l)]) (queue ++ fresh.map (·, l + 1)) := by
  have hsome : ∀ b, b ∈ fresh.map some ↔ Crowned R IsRoot (some a) b ∧
      b ∉ (((none, 0) :: done.map below) ++ ((a, l) :: queue).map below).map (·.1) := by
    intro b
    rw [map_fst_append]
    cases b with
    | none =>
      refine iff_of_false (by simp) ?_
      rintro ⟨⟨⟩, -⟩
    | some b =>
      rw [crowned_some, List.mem_cons, or_iff_right (Option.some_ne_none b)]
      simp only [List.mem_map, Option.some_inj, exists_eq_right, hfresh]
  have hnext := Frontier.expand (a := some a) (l := l + 1) h (Nat.succ_lt_succ hl)
    (hnd.map fun _ _ => Option.some.inj) hsome
  rw [FrontierFrom, List.map_append, List.map_append, List.map_map]
  rw [List.map_map] at hnext
  exact hnext

/-- **A finished search from several roots has met exactly the elements at a distance up to the
greatest**, each with its distance. -/
theorem mem_iff (h : FrontierFrom R IsRoot maxDepth done []) {b : α} {k : Nat} :
    (b, k) ∈ done ↔ DistanceFrom R IsRoot b k ∧ k ≤ maxDepth := by
  have hmem := Frontier.mem_iff_distance h (a := some b) (k := k + 1)
  rw [distance_crowned, forall_lt_iff_le, Nat.succ_le_succ_iff] at hmem
  rw [← hmem, List.mem_cons, or_iff_right (by simp)]
  exact mem_map_below.symm

/-- A finished search that nowhere came to the greatest depth has met all that can be reached. -/
theorem mem_of_reaches (h : FrontierFrom R IsRoot maxDepth done [])
    (hbelow : ∀ p ∈ done, p.2 < maxDepth) {r b : α} (hr : IsRoot r)
    (hrb : Relation.ReflTransGen R r b) : b ∈ done.map (·.1) := by
  induction hrb with
  | refl =>
    obtain ⟨k, hk, hdist⟩ := exists_distanceFrom_le hr (k := 0) rfl
    exact List.mem_map_of_mem (h.mem_iff.2 ⟨hdist, hk.trans (Nat.zero_le _)⟩)
  | @tail b c _ hbc ih =>
    obtain ⟨⟨b, l⟩, hb, rfl⟩ := List.mem_map.1 ih
    obtain ⟨a, ha, hab⟩ := (h.mem_iff.1 hb).1.1
    obtain ⟨k, hk, hdist⟩ := exists_distanceFrom_le ha (k := l + 1) ⟨b, hab, hbc⟩
    exact List.mem_map_of_mem (h.mem_iff.2 ⟨hdist, hk.trans (hbelow _ hb)⟩)

end FrontierFrom

end CodeGraph

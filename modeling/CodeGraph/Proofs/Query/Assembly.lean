import CodeGraph.Proofs.Query.Forest
import Mathlib.Algebra.Order.BigOperators.Group.Finset

/-!
# Assembling outlines

An assembly works off a stack: it looks into a declaration, then into what is inside it, and builds
the outline on the way back out of those that were built. Where no declaration is listed twice, each
outline is built once and is taken once, by the declaration around it, so the stack does what
growing does by recursion.

* `Under`: what walks from some declarations lead to.
* `Assembly.run_expand`, `Assembly.run_finish`: one turn on the way in and one on the way out.
* **`Assembly.stack_run_start`**: whatever is listed, a run ends with an empty stack.
* `Assembly.Ready`, `Assembly.Assembled`: what holds before and after the outlines of the
  declarations on top of the stack are built.
* `Assembly.Assembles`: a run builds them, for one declaration (`Assembles.singleton`), for several
  (`Assembles.cons`), hence for all (`Assembly.assembles`).
* **`Parted.assemble_eq_grow`**: what is assembled is what is grown.
-/

namespace CodeGraph

open Std

variable {inside : ExtTreeMap NodeId (List Node)}

/-! ## What is under declarations -/

/-- A walk leads from one of some declarations to an identifier. -/
def Under (inside : ExtTreeMap NodeId (List Node)) (ns : List Node) (id : NodeId) : Prop :=
  ∃ a ∈ ns, ∃ k, StepsTo (HoldingId inside) k a.id id

theorem Under.of_mem {ns : List Node} {n : Node} (hn : n ∈ ns) : Under inside ns n.id :=
  ⟨n, hn, 0, rfl⟩

theorem Under.mono {ns ns' : List Node} (hsub : ns ⊆ ns') {id : NodeId} (h : Under inside ns id) :
    Under inside ns' id := by
  obtain ⟨a, ha, hid⟩ := h
  exact ⟨a, hsub ha, hid⟩

theorem Under.held {ns : List Node} {id : NodeId} (h : Under inside ns id) {n : Node}
    (hn : n ∈ heldBy inside id) : Under inside ns n.id := by
  obtain ⟨a, ha, k, hk⟩ := h
  exact ⟨a, ha, k + 1, id, hk, n, hn, rfl⟩

theorem under_cons_iff {n : Node} {ns : List Node} {id : NodeId} :
    Under inside (n :: ns) id ↔ Under inside [n] id ∨ Under inside ns id := by
  simp [Under]

theorem under_singleton_iff {n : Node} {id : NodeId} : Under inside [n] id ↔
    id = n.id ∨ Under inside (sortBy sourceOrder (heldBy inside n.id)) id := by
  simp only [Under, List.mem_singleton, exists_eq_left, mem_sortBy]
  constructor
  · rintro ⟨k, hk⟩
    cases k with
    | zero => exact .inl (Eq.symm hk)
    | succ k =>
      obtain ⟨b, ⟨c, hc, rfl⟩, hcid⟩ := StepsTo.succ_iff.1 hk
      exact .inr ⟨c, hc, k, hcid⟩
  · rintro (rfl | ⟨c, hc, k, hk⟩)
    · exact ⟨0, rfl⟩
    · exact ⟨k + 1, StepsTo.cons ⟨c, hc, rfl⟩ hk⟩

theorem Parted.not_under_of_apart (h : Parted inside) {n : Node} {ns : List Node}
    (hns : Apart inside (n :: ns)) {id : NodeId} (hid : Under inside [n] id) :
    ¬ Under inside ns id := by
  rintro ⟨b, hb, k, hk⟩
  obtain ⟨a, ha, j, hj⟩ := hid
  obtain rfl := List.mem_singleton.1 ha
  have hne : a.id ≠ b.id := fun heq =>
    (List.nodup_cons.1 hns.once).1 (List.mem_map.2 ⟨b, hb, heq.symm⟩)
  have hmem : b ∈ a :: ns := List.mem_cons_of_mem _ hb
  exact h.ne_of_stepsTo hne (hns.unjoined a List.mem_cons_self b hmem)
    (hns.unjoined b hmem a List.mem_cons_self) hj hk rfl

theorem mem_listed {n : Node} : n ∈ listed inside ↔ ∃ a, n ∈ heldBy inside a := by
  simp only [listed, List.mem_flatMap, Prod.exists, ExtTreeMap.mem_toList_iff_getElem?_eq_some]
  constructor
  · rintro ⟨a, ns, hns, hn⟩
    exact ⟨a, by rwa [heldBy, hns]⟩
  · rintro ⟨a, hn⟩
    rw [heldBy] at hn
    cases hns : inside[a]? with
    | none => simp [hns] at hn
    | some ns => exact ⟨a, ns, hns, by rwa [hns] at hn⟩

theorem heldBy_inSourceOrder (a : NodeId) :
    heldBy (inSourceOrder inside) a = sortBy sourceOrder (heldBy inside a) := by
  rw [heldBy, inSourceOrder, ExtTreeMap.getElem?_map, heldBy]
  cases inside[a]? with
  | none => simp [sortBy]
  | some ns => rfl

namespace Assembly

/-! ## Taking outlines -/

theorem take_cons (id : NodeId) (ids : List NodeId) (built : ExtTreeMap NodeId Outline) :
    take (id :: ids) built = (built[id]?.toList ++ (take ids (built.erase id)).1,
      (take ids (built.erase id)).2) := rfl

theorem getElem?_take {ids : List NodeId} {id : NodeId} (hid : id ∉ ids)
    (built : ExtTreeMap NodeId Outline) : (take ids built).2[id]? = built[id]? := by
  induction ids generalizing built with
  | nil => rfl
  | cons a ids ih =>
    rw [List.mem_cons, not_or] at hid
    rw [take_cons, ih hid.2, ExtTreeMap.getElem?_erase, if_neg]
    simpa using Ne.symm hid.1

theorem take_map_id {ns : List Node} (hns : (ns.map (·.id)).Nodup) {outline : Node → Outline}
    {built : ExtTreeMap NodeId Outline} (h : ∀ n ∈ ns, built[n.id]? = some (outline n)) :
    (take (ns.map (·.id)) built).1 = ns.map outline := by
  induction ns generalizing built with
  | nil => rfl
  | cons n ns ih =>
    rw [List.map_cons, List.nodup_cons] at hns
    have hrest : ∀ m ∈ ns, (built.erase n.id)[m.id]? = some (outline m) := by
      intro m hm
      have hne : n.id ≠ m.id := fun heq => hns.1 (List.mem_map.2 ⟨m, hm, heq.symm⟩)
      rw [ExtTreeMap.getElem?_erase, if_neg (by simpa using hne), h m (List.mem_cons_of_mem _ hm)]
    rw [List.map_cons, take_cons, ih hns.2 hrest, h n List.mem_cons_self]
    rfl

/-! ## One turn -/

variable {w : Assembly} {rest : List (NodeId × Bool)} {id : NodeId} {n : Node}

theorem run_of_stack_nil (hstack : w.stack = []) (fuel : Nat) : run inside fuel w = w := by
  cases fuel with
  | zero => rfl
  | succ fuel => rw [run, hstack]

theorem run_add (m fuel : Nat) (w : Assembly) :
    run inside (m + fuel) w = run inside fuel (run inside m w) := by
  induction m generalizing w with
  | zero => rw [Nat.zero_add, run]
  | succ m ih =>
    rw [Nat.succ_add, run, run]
    split
    case h_1 hstack => exact (run_of_stack_nil hstack fuel).symm
    case h_2 | h_3 => exact ih _

/-- If nothing directly inside a declaration was looked into, all of it comes on the stack. -/
theorem run_expand (hstack : w.stack = (id, false) :: rest) (hid : id ∉ w.expanded)
    (hfresh : ∀ c ∈ sortBy sourceOrder (heldBy inside id), c.id ∉ w.expanded ∧ c.id ≠ id)
    (fuel : Nat) : run (inSourceOrder inside) (fuel + 1) w = run (inSourceOrder inside) fuel
      { w with
        expanded := w.expanded.insert id
        stack := (sortBy sourceOrder (heldBy inside id)).map (fun c => (c.id, false)) ++
          (id, true) :: rest } := by
  have hall : ((sortBy sourceOrder (heldBy inside id)).map (·.id)).filter
      (fun child => !(w.expanded.insert id).contains child) =
        (sortBy sourceOrder (heldBy inside id)).map (·.id) := by
    rw [List.filter_eq_self]
    rintro child hchild
    obtain ⟨c, hc, rfl⟩ := List.mem_map.1 hchild
    obtain ⟨hnot, hne⟩ := hfresh c hc
    have hnot : w.expanded.contains c.id = false := by
      rwa [Bool.eq_false_iff, Ne, ExtTreeSet.contains_iff_mem]
    simp [hnot, Ne.symm hne]
  rw [← heldBy_inSourceOrder, heldBy] at hall ⊢
  rw [run, hstack]
  dsimp only
  rw [expand, if_neg (by simpa using hid)]
  dsimp only
  rw [hall, List.map_map]
  rfl

/-- If all directly inside a declaration is built, its outline holds all of it. -/
theorem run_finish (hstack : w.stack = (n.id, true) :: rest) (hnode : w.nodes[n.id]? = some n)
    (honce : ((sortBy sourceOrder (heldBy inside n.id)).map (·.id)).Nodup)
    {outline : Node → Outline}
    (hbuilt : ∀ c ∈ sortBy sourceOrder (heldBy inside n.id), w.built[c.id]? = some (outline c))
    (fuel : Nat) : run (inSourceOrder inside) (fuel + 1) w = run (inSourceOrder inside) fuel
      { w with
        stack := rest
        nodes := w.nodes.erase n.id
        built := (take ((sortBy sourceOrder (heldBy inside n.id)).map (·.id)) w.built).2.insert n.id
          (.mk n ((sortBy sourceOrder (heldBy inside n.id)).map outline)) } := by
  rw [← take_map_id honce hbuilt, ← heldBy_inSourceOrder, heldBy, run, hstack]
  dsimp only
  rw [finish, hnode]

/-! ## The bound of a run -/

/-- The most turns that an assembly has before it if it looks into some identifiers only: one for
each entry of the stack, and for each of these identifiers that it can still look into one for the
entry that marks it and one for each declaration inside it. -/
def remaining (inside : ExtTreeMap NodeId (List Node)) (among : Finset NodeId) (w : Assembly) :
    Nat :=
  w.stack.length + ∑ a ∈ among with a ∉ w.expanded, (1 + (heldBy inside a).length)

/-- An assembly looks into some identifiers only. -/
def Confined (among : Finset NodeId) (w : Assembly) : Prop :=
  ∀ a, (a, false) ∈ w.stack → a ∈ among

section Bound

variable {among : Finset NodeId} (hamong : ∀ a, ∀ c ∈ heldBy inside a, c.id ∈ among)

theorem finish_stack (inside : ExtTreeMap NodeId (List Node)) (id : NodeId) (w : Assembly) :
    (finish inside id w).stack = w.stack ∧ (finish inside id w).expanded = w.expanded := by
  unfold finish
  dsimp only
  split <;> exact ⟨rfl, rfl⟩

theorem expand_cases (inside : ExtTreeMap NodeId (List Node)) (id : NodeId) (w : Assembly) :
    (id ∈ w.expanded ∧ expand inside id w = w) ∨
      (id ∉ w.expanded ∧ (expand inside id w).expanded = w.expanded.insert id ∧
        ∃ ids : List NodeId, ids.Sublist ((heldBy inside id).map (·.id)) ∧
          (expand inside id w).stack = ids.map (·, false) ++ (id, true) :: w.stack) := by
  unfold expand
  split
  case isTrue hid => exact .inl ⟨ExtTreeSet.contains_iff_mem.1 hid, rfl⟩
  case isFalse hid =>
    exact .inr ⟨fun h => hid (ExtTreeSet.contains_iff_mem.2 h), rfl, _, List.filter_sublist, rfl⟩

theorem Confined.tail {entry : NodeId × Bool} (hw : Confined among w)
    (hstack : w.stack = entry :: rest) : Confined among { w with stack := rest } :=
  fun a ha => hw a (hstack ▸ List.mem_cons_of_mem _ ha)

theorem remaining_tail (inside : ExtTreeMap NodeId (List Node)) (among : Finset NodeId)
    {entry : NodeId × Bool} (hstack : w.stack = entry :: rest) :
    remaining inside among { w with stack := rest } + 1 = remaining inside among w := by
  rw [remaining, remaining, hstack, List.length_cons]
  dsimp only
  omega

theorem Confined.finish (hw : Confined among w) (id : NodeId) :
    Confined among (finish inside id w) := by
  rw [Confined, (finish_stack inside id w).1]
  exact hw

include hamong in
theorem Confined.expand (hw : Confined among w) (id : NodeId) :
    Confined among (expand inside id w) := by
  rcases expand_cases inside id w with ⟨-, hexpand⟩ | ⟨-, -, ids, hids, hstack⟩
  · rwa [hexpand]
  · intro a ha
    rw [hstack, List.mem_append, List.mem_map, List.mem_cons] at ha
    rcases ha with ⟨b, hb, hab⟩ | hab | ha
    · cases hab
      obtain ⟨c, hc, rfl⟩ := List.mem_map.1 (hids.subset hb)
      exact hamong id c hc
    · cases hab
    · exact hw a ha

theorem remaining_finish (id : NodeId) (w : Assembly) :
    remaining inside among (finish inside id w) = remaining inside among w := by
  rw [remaining, remaining, (finish_stack inside id w).1, (finish_stack inside id w).2]

/-- What comes on the stack with an identifier was counted with it. -/
theorem remaining_expand_le (hid : id ∈ among) (w : Assembly) :
    remaining inside among (expand inside id w) ≤ remaining inside among w := by
  rcases expand_cases inside id w with ⟨-, hexpand⟩ | ⟨hnot, hexpanded, ids, hids, hstack⟩
  · rw [hexpand]
  · have hleft : {a ∈ among | a ∉ w.expanded.insert id} =
        ({a ∈ among | a ∉ w.expanded} : Finset NodeId).erase id := by
      ext a
      simp only [Finset.mem_filter, Finset.mem_erase, ExtTreeSet.mem_insert]
      grind
    have hsum := Finset.add_sum_erase {a ∈ among | a ∉ w.expanded}
      (fun a => 1 + (heldBy inside a).length) (Finset.mem_filter.2 ⟨hid, hnot⟩)
    have hlen := hids.length_le
    rw [remaining, remaining, hstack, hexpanded, hleft, ← hsum]
    simp only [List.length_append, List.length_map, List.length_cons] at hlen ⊢
    omega

include hamong in
/-- Every turn takes an entry from the stack, and adds no more than what was counted. -/
theorem stack_run_eq_nil (hw : Confined among w) {fuel : Nat}
    (hfuel : remaining inside among w ≤ fuel) : (run inside fuel w).stack = [] := by
  induction fuel generalizing w with
  | zero =>
    rw [remaining] at hfuel
    exact List.eq_nil_of_length_eq_zero (by rw [run]; omega)
  | succ fuel ih =>
    rw [run]
    split
    case h_1 hstack => exact hstack
    case h_2 id rest hstack =>
      have htail := remaining_tail inside among hstack
      refine ih ((hw.tail hstack).finish id) ?_
      rw [remaining_finish]
      omega
    case h_3 id rest hstack =>
      have htail := remaining_tail inside among hstack
      have hid : id ∈ among := hw id (hstack ▸ List.mem_cons_self)
      refine ih ((hw.tail hstack).expand hamong id) ?_
      exact (remaining_expand_le hid _).trans (by omega)

end Bound

theorem sum_heldBy_le (inside : ExtTreeMap NodeId (List Node)) (among : Finset NodeId) :
    ∑ a ∈ among, (heldBy inside a).length ≤ (listed inside).length := by
  have hlisted : (listed inside).length =
      (inside.keys.map fun a => (heldBy inside a).length).sum := by
    rw [listed, List.length_flatMap, ← ExtTreeMap.map_fst_toList_eq_keys, List.map_map]
    congr 1
    refine List.map_congr_left fun p hp => ?_
    rw [Function.comp_apply, heldBy, ExtTreeMap.mem_toList_iff_getElem?_eq_some.1 hp]
    rfl
  rw [hlisted, ← List.sum_toFinset _ ExtTreeMap.nodup_keys]
  refine Finset.sum_le_sum_of_ne_zero fun a _ hne => ?_
  rw [List.mem_toFinset, ExtTreeMap.mem_keys]
  by_contra hnot
  rw [heldBy, ExtTreeMap.getElem?_eq_none hnot] at hne
  exact hne rfl

/-- **A run ends**, whatever is listed: with the turns that an assembly has, its stack is empty. -/
theorem stack_run_start (roots : List Node) :
    (run inside (2 * (roots.length + (listed inside).length)) (start roots inside)).stack = [] := by
  let among := ((roots ++ listed inside).map (·.id)).toFinset
  have hamong : ∀ a, ∀ c ∈ heldBy inside a, c.id ∈ among := fun a c hc =>
    List.mem_toFinset.2 (List.mem_map_of_mem (List.mem_append_right _ (mem_listed.2 ⟨a, hc⟩)))
  have hstart : Confined among (start roots inside) := by
    intro a ha
    obtain ⟨r, hr, hra⟩ := List.mem_map.1 ha
    cases hra
    exact List.mem_toFinset.2 (List.mem_map_of_mem (List.mem_append_left _ hr))
  have hcard : among.card ≤ roots.length + (listed inside).length := by
    have hcard := List.toFinset_card_le ((roots ++ listed inside).map (·.id))
    rwa [List.length_map, List.length_append] at hcard
  refine stack_run_eq_nil hamong hstart ?_
  calc remaining inside among (start roots inside)
    _ ≤ roots.length + ∑ a ∈ among, (1 + (heldBy inside a).length) := by
      rw [remaining, start, List.length_map]
      exact Nat.add_le_add_left (Finset.sum_le_sum_of_subset (Finset.filter_subset _ _)) _
    _ = roots.length + (among.card + ∑ a ∈ among, (heldBy inside a).length) := by
      rw [Finset.sum_add_distrib, ← Finset.card_eq_sum_ones]
    _ ≤ roots.length + (roots.length + (listed inside).length + (listed inside).length) :=
      Nat.add_le_add_left (Nat.add_le_add hcard (sum_heldBy_le inside among)) _
    _ = 2 * (roots.length + (listed inside).length) := by omega

theorem run_start_eq {roots : List Node} {turns : Nat}
    (hturns : (run inside turns (start roots inside)).stack = []) :
    run inside (2 * (roots.length + (listed inside).length)) (start roots inside) =
      run inside turns (start roots inside) := by
  rw [← run_of_stack_nil (stack_run_start roots) turns, ← run_add, Nat.add_comm, run_add,
    run_of_stack_nil hturns]

/-! ## The turns for an outline -/

/-- Nothing under some declarations was looked into. -/
structure Ready (inside : ExtTreeMap NodeId (List Node)) (ns : List Node) (w : Assembly) :
    Prop where
  unexpanded : ∀ id, Under inside ns id → id ∉ w.expanded
  top : ∀ n ∈ ns, w.nodes[n.id]? = some n
  below : ∀ id, Under inside ns id → ∀ n ∈ heldBy inside id, w.nodes[n.id]? = some n

/-- The outlines of some declarations were built, and what is not under them is as it was. -/
structure Assembled (inside : ExtTreeMap NodeId (List Node)) (fuel : Nat) (ns : List Node)
    (w w' : Assembly) : Prop where
  expanded : ∀ id, ¬ Under inside ns id → (id ∈ w'.expanded ↔ id ∈ w.expanded)
  nodes : ∀ id, ¬ Under inside ns id → w'.nodes[id]? = w.nodes[id]?
  kept : ∀ id, ¬ Under inside ns id → w'.built[id]? = w.built[id]?
  built : ∀ n ∈ ns, w'.built[n.id]? = some (Outline.grow inside fuel n)

section Single

variable {depth : Nat} (hloop : ∀ k, 0 < k → ¬ StepsTo (HoldingId inside) k n.id n.id)
include hloop

theorem not_under_held : ¬ Under inside (sortBy sourceOrder (heldBy inside n.id)) n.id := by
  rintro ⟨c, hc, k, hk⟩
  exact hloop (k + 1) (Nat.succ_pos k) (StepsTo.cons ⟨c, (mem_sortBy _ _).1 hc, rfl⟩ hk)

/-- On the way in, what is inside a declaration comes on top of it. -/
theorem Ready.expand (hstack : w.stack = (n.id, false) :: rest) (hready : Ready inside [n] w) :
    ∃ w', (∀ fuel, run (inSourceOrder inside) (fuel + 1) w = run (inSourceOrder inside) fuel w') ∧
      w'.stack = (sortBy sourceOrder (heldBy inside n.id)).map (fun c => (c.id, false)) ++
        (n.id, true) :: rest ∧
      Ready inside (sortBy sourceOrder (heldBy inside n.id)) w' ∧
      w'.expanded = w.expanded.insert n.id ∧ w'.nodes = w.nodes ∧ w'.built = w.built := by
  have hself := not_under_held hloop
  have hn : ∀ {id}, Under inside (sortBy sourceOrder (heldBy inside n.id)) id →
      Under inside [n] id := fun hid => under_singleton_iff.2 (.inr hid)
  have hfresh : ∀ {id}, Under inside (sortBy sourceOrder (heldBy inside n.id)) id →
      id ∉ w.expanded ∧ id ≠ n.id := fun hid =>
    ⟨hready.unexpanded _ (hn hid), fun heq => hself (heq ▸ hid)⟩
  have hnot := hready.unexpanded n.id (Under.of_mem (List.mem_singleton_self n))
  refine ⟨_, run_expand hstack hnot fun c hc => hfresh (Under.of_mem hc), rfl, ?_, rfl, rfl, rfl⟩
  constructor
  case unexpanded =>
    intro id hid
    obtain ⟨hnot, hne⟩ := hfresh hid
    simp [hnot, Ne.symm hne]
  case top =>
    intro c hc
    rw [mem_sortBy] at hc
    exact hready.below n.id (Under.of_mem (List.mem_singleton_self n)) c hc
  case below => exact fun id hid => hready.below id (hn hid)

/-- On the way out, a declaration is finished from the outlines of what is inside it. -/
theorem Assembled.finish (h : Parted inside) (hready : Ready inside [n] w) {w₁ w₂ : Assembly}
    (hstack : w₂.stack = (n.id, true) :: rest) (hexpanded : w₁.expanded = w.expanded.insert n.id)
    (hnodes : w₁.nodes = w.nodes) (hbuilt : w₁.built = w.built)
    (hheld : Assembled inside depth (sortBy sourceOrder (heldBy inside n.id)) w₁ w₂) :
    ∃ w', (∀ fuel, run (inSourceOrder inside) (fuel + 1) w₂ = run (inSourceOrder inside) fuel w') ∧
      w'.stack = rest ∧ Assembled inside (depth + 1) [n] w w' := by
  have hnode : w₂.nodes[n.id]? = some n := by
    rw [hheld.nodes n.id (not_under_held hloop), hnodes]
    exact hready.top n (List.mem_singleton_self n)
  refine ⟨_, run_finish hstack hnode (h.apart_held hloop).once hheld.built, rfl, ?_⟩
  constructor
  case expanded =>
    intro id hid
    rw [under_singleton_iff, not_or] at hid
    rw [hheld.expanded id hid.2, hexpanded, ExtTreeSet.mem_insert]
    simp [Ne.symm hid.1]
  case nodes =>
    intro id hid
    rw [under_singleton_iff, not_or] at hid
    rw [ExtTreeMap.getElem?_erase, if_neg (by simpa using Ne.symm hid.1), hheld.nodes id hid.2,
      hnodes]
  case kept =>
    intro id hid
    rw [under_singleton_iff, not_or] at hid
    have hnot : id ∉ (sortBy sourceOrder (heldBy inside n.id)).map (·.id) := by
      rintro hmem
      obtain ⟨c, hc, rfl⟩ := List.mem_map.1 hmem
      exact hid.2 (Under.of_mem hc)
    rw [ExtTreeMap.getElem?_insert, if_neg (by simpa using Ne.symm hid.1), getElem?_take hnot,
      hheld.kept id hid.2, hbuilt]
  case built =>
    intro m hm
    obtain rfl := List.mem_singleton.1 hm
    rw [ExtTreeMap.getElem?_insert_self, Outline.grow_succ]

end Single

/-- With some declarations on top of the stack, a run builds their outlines. -/
def Assembles (inside : ExtTreeMap NodeId (List Node)) (depth : Nat) (ns : List Node) : Prop :=
  ∀ w rest, w.stack = ns.map (fun n => (n.id, false)) ++ rest → Ready inside ns w →
    ∃ turns w', run (inSourceOrder inside) turns w = w' ∧ w'.stack = rest ∧
      Assembled inside depth ns w w'

namespace Assembles

variable {depth : Nat} {ns : List Node}

theorem nil : Assembles inside depth [] := by
  intro w rest hstack _
  exact ⟨0, w, rfl, hstack, fun _ _ => Iff.rfl, fun _ _ => rfl, fun _ _ => rfl, by simp⟩

theorem singleton (h : Parted inside)
    (hloop : ∀ k, 0 < k → ¬ StepsTo (HoldingId inside) k n.id n.id)
    (hheld : Assembles inside depth (sortBy sourceOrder (heldBy inside n.id))) :
    Assembles inside (depth + 1) [n] := by
  intro w rest hstack hready
  obtain ⟨w₁, hrun₁, hstack₁, hready₁, hexpanded, hnodes, hbuilt⟩ :=
    Ready.expand hloop hstack hready
  obtain ⟨turns, w₂, hrun₂, hstack₂, hassembled⟩ := hheld w₁ _ hstack₁ hready₁
  obtain ⟨w', hrun', hstack', hdone⟩ :=
    Assembled.finish hloop h hready hstack₂ hexpanded hnodes hbuilt hassembled
  refine ⟨turns + 1 + 1, w', ?_, hstack', hdone⟩
  rw [hrun₁, run_add, hrun₂, hrun' 0, run]

theorem cons (h : Parted inside) (hns : Apart inside (n :: ns))
    (hn : Assembles inside depth [n]) (hrest : Assembles inside depth ns) :
    Assembles inside depth (n :: ns) := by
  intro w rest hstack hready
  have hnot : ∀ {id}, Under inside ns id → ¬ Under inside [n] id := fun hid hid' =>
    h.not_under_of_apart hns hid' hid
  have htail : ns ⊆ n :: ns := List.subset_cons_self n ns
  have hhead : [n] ⊆ n :: ns := by simp
  obtain ⟨turns₁, w₁, hrun₁, hstack₁, h₁⟩ := hn w _ hstack
    ⟨fun id hid => hready.unexpanded id (hid.mono hhead), fun m hm => hready.top m (hhead hm),
      fun id hid => hready.below id (hid.mono hhead)⟩
  have hready₁ : Ready inside ns w₁ := by
    constructor
    case unexpanded =>
      intro id hid
      rw [h₁.expanded id (hnot hid)]
      exact hready.unexpanded id (hid.mono htail)
    case top =>
      intro m hm
      rw [h₁.nodes m.id (hnot (Under.of_mem hm))]
      exact hready.top m (htail hm)
    case below =>
      intro id hid m hm
      rw [h₁.nodes m.id (hnot (hid.held hm))]
      exact hready.below id (hid.mono htail) m hm
  obtain ⟨turns₂, w₂, hrun₂, hstack₂, h₂⟩ := hrest w₁ rest hstack₁ hready₁
  refine ⟨turns₁ + turns₂, w₂, by rw [run_add, hrun₁, hrun₂], hstack₂, ?_⟩
  constructor
  case expanded =>
    intro id hid
    rw [under_cons_iff, not_or] at hid
    rw [h₂.expanded id hid.2, h₁.expanded id hid.1]
  case nodes =>
    intro id hid
    rw [under_cons_iff, not_or] at hid
    rw [h₂.nodes id hid.2, h₁.nodes id hid.1]
  case kept =>
    intro id hid
    rw [under_cons_iff, not_or] at hid
    rw [h₂.kept id hid.2, h₁.kept id hid.1]
  case built =>
    intro m hm
    rcases List.mem_cons.1 hm with rfl | hm
    · have hm : Under inside [m] m.id := Under.of_mem (List.mem_singleton_self m)
      rw [h₂.kept m.id fun hm' => hnot hm' hm]
      exact h₁.built m (List.mem_singleton_self m)
    · exact h₂.built m hm

end Assembles

/-- **A run builds what growing gives**, from declarations that no walk joins, if no walk from them
is as long as the depth. -/
theorem assembles (h : Parted inside) (depth : Nat) {ns : List Node} (hns : Apart inside ns)
    (hdepth : ∀ a ∈ ns, ∀ k b, StepsTo (Holding inside) k a b → k < depth) :
    Assembles inside depth ns := by
  -- on the depth, and for one depth on the declarations
  induction depth generalizing ns with
  | zero =>
    cases ns with
    | nil => exact Assembles.nil
    | cons n ns => exact absurd (hdepth n List.mem_cons_self 0 n rfl) (Nat.lt_irrefl 0)
  | succ depth ihdepth =>
    induction ns with
    | nil => exact Assembles.nil
    | cons n ns ih =>
      have hloop := hns.unjoined n List.mem_cons_self n List.mem_cons_self
      refine Assembles.cons h hns (Assembles.singleton h hloop ?_) ?_
      · refine ihdepth (h.apart_held hloop) fun c hc k b hcb => ?_
        rw [mem_sortBy] at hc
        exact Nat.lt_of_succ_lt_succ (hdepth n List.mem_cons_self (k + 1) b (StepsTo.cons hc hcb))
      · exact ih (hns.sublist (List.sublist_cons_self n ns)) fun a ha =>
          hdepth a (List.mem_cons_of_mem n ha)

end Assembly

/-! ## The whole assembly -/

theorem getElem?_foldl_insertIfNew (ns : List Node) (nodes : ExtTreeMap NodeId Node) (id : NodeId) :
    (ns.foldl (fun nodes n => nodes.insertIfNew n.id n) nodes)[id]? =
      nodes[id]?.or (ns.find? (·.id == id)) := by
  induction ns generalizing nodes with
  | nil => simp
  | cons n ns ih =>
    rw [List.foldl_cons, ih, ExtTreeMap.getElem?_insertIfNew, List.find?_cons]
    by_cases hid : n.id = id
    · subst hid
      cases hnode : nodes[n.id]? <;> simp [hnode, ← ExtTreeMap.isSome_getElem?_iff_mem]
    · simp [hid, beq_eq_false_iff_ne.2 hid]

namespace Parted

variable (h : Parted inside) {roots : List Node}
include h

theorem find?_listed {n : Node} {a : NodeId} (hn : n ∈ heldBy inside a) :
    (listed (inSourceOrder inside)).find? (·.id == n.id) = some n := by
  have hheld : ∀ m, m ∈ listed (inSourceOrder inside) ↔ ∃ b, m ∈ heldBy inside b := by
    simp only [mem_listed, heldBy_inSourceOrder, mem_sortBy, implies_true]
  have hsome : ((listed (inSourceOrder inside)).find? (·.id == n.id)).isSome := by
    rw [List.find?_isSome]
    exact ⟨n, (hheld n).2 ⟨a, hn⟩, beq_self_eq_true n.id⟩
  obtain ⟨m, hm⟩ := Option.isSome_iff_exists.1 hsome
  obtain ⟨b, hmb⟩ := (hheld m).1 (List.mem_of_find?_eq_some hm)
  have hid : m.id = n.id := by simpa using List.find?_some hm
  -- no other list has the identifier, and this one has it once
  obtain rfl := h.single b a n.id ⟨m, hmb, hid⟩ ⟨n, hn, rfl⟩
  rw [hm, List.inj_on_of_nodup_map (h.once b) hmb hn hid]

theorem ready_start (hroots : (roots.map (·.id)).Nodup)
    (hunheld : ∀ r ∈ roots, ∀ a, ¬ HoldingId inside a r.id) :
    Assembly.Ready inside roots (Assembly.start roots (inSourceOrder inside)) where
  unexpanded id _ := by simp [Assembly.start]
  top r hr := by
    have hdistinct : (roots.map fun n => (n.id, n)).Pairwise
        fun p q => ¬ compare p.1 q.1 = .eq := by
      rw [List.pairwise_map]
      simpa using List.pairwise_map.1 hroots
    have hsome : (ExtTreeMap.ofList (roots.map fun n => (n.id, n)))[r.id]? = some r :=
      ExtTreeMap.getElem?_ofList_of_mem ReflCmp.compare_self hdistinct (List.mem_map_of_mem hr)
    rw [Assembly.start, getElem?_foldl_insertIfNew, hsome, Option.some_or]
  below id _ n hn := by
    have hnone : (ExtTreeMap.ofList (roots.map fun n => (n.id, n)))[n.id]? = none := by
      apply ExtTreeMap.getElem?_ofList_of_contains_eq_false
      simp only [List.map_map, List.contains_eq_mem, decide_eq_false_iff_not]
      intro hmem
      obtain ⟨r, hr, hid⟩ := List.mem_map.1 hmem
      exact hunheld r hr id ⟨n, hn, hid.symm⟩
    rw [Assembly.start, getElem?_foldl_insertIfNew, hnone, Option.none_or, h.find?_listed hn]

/-- **An assembly gives what growing does**, from declarations that are listed inside none, if no
walk from them is as long as the depth. -/
theorem assemble_eq_grow (hroots : (roots.map (·.id)).Nodup)
    (hunheld : ∀ r ∈ roots, ∀ a, ¬ HoldingId inside a r.id) {depth : Nat}
    (hdepth : ∀ r ∈ roots, ∀ k b, StepsTo (Holding inside) k r b → k < depth) :
    assemble roots inside = roots.map (Outline.grow inside depth) := by
  have hapart := Apart.of_not_holdingId hroots hunheld
  obtain ⟨turns, w, hrun, hstack, hassembled⟩ := Assembly.assembles h depth hapart hdepth
    (Assembly.start roots (inSourceOrder inside)) [] (by simp [Assembly.start])
    (h.ready_start hroots hunheld)
  rw [assemble, Assembly.run_start_eq (hrun ▸ hstack), hrun]
  exact Assembly.take_map_id hroots hassembled.built

end Parted

end CodeGraph

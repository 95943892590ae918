import CodeGraph.Proofs.Query.Search
import CodeGraph.Proofs.Query.Sorting
import CodeGraph.Query.Outline
import Mathlib.Data.List.Pairwise

/-!
# Outlines as forests

The lists of the declarations directly inside each can be grown into outlines by recursion. What
stands in such an outline are the ends of the walks along these lists, each at the level of the
walk's length.

* `Outline.parts`, `Outline.partsOf`: the outlines within an outline, each with its level; there are
  as many as it holds declarations (`Outline.length_partsOf`).
* `heldBy`, `Holding`: the declarations directly inside one.
* `Outline.grow`, `Outline.mem_partsOf_grow`: growing, and the outlines within those that are grown.
* `Parted`, `Apart`: no declaration is listed twice, and declarations that no walk joins; then none
  stands twice in what is grown from these (`Parted.nodup_partsOf_grow`).
-/

namespace CodeGraph

/-! ## What stands in an outline -/

namespace Outline

mutual

/-- The outlines within an outline in preorder, itself first, each with its level. -/
def parts (level : Nat) : Outline → List (Outline × Nat)
  | mk node children => (mk node children, level) :: partsOf (level + 1) children

/-- The outlines within several outlines. -/
def partsOf (level : Nat) : List Outline → List (Outline × Nat)
  | [] => []
  | t :: rest => parts level t ++ partsOf level rest

end

theorem partsOf_eq_flatMap (level : Nat) (ts : List Outline) :
    partsOf level ts = ts.flatMap (parts level) := by
  induction ts with
  | nil => rfl
  | cons t rest ih => rw [partsOf, ih, List.flatMap_cons]

mutual

theorem length_parts (level : Nat) : ∀ t : Outline, (parts level t).length = size t
  | mk node children => by
    rw [parts, size, List.length_cons, length_partsOf (level + 1) children, Nat.add_comm]

theorem length_partsOf (level : Nat) : ∀ ts : List Outline, (partsOf level ts).length = sizes ts
  | [] => rfl
  | t :: rest => by
    rw [partsOf, sizes, List.length_append, length_parts level t, length_partsOf level rest]

end

end Outline

/-! ## What is listed inside a declaration -/

/-- The declarations directly inside one. -/
def heldBy (inside : Std.ExtTreeMap NodeId (List Node)) (a : NodeId) : List Node :=
  inside[a]?.getD []

/-- The second declaration is directly inside the first. -/
def Holding (inside : Std.ExtTreeMap NodeId (List Node)) (a b : Node) : Prop :=
  b ∈ heldBy inside a.id

/-- A declaration of the second identifier is directly inside the first. -/
def HoldingId (inside : Std.ExtTreeMap NodeId (List Node)) (a b : NodeId) : Prop :=
  ∃ n ∈ heldBy inside a, n.id = b

variable {inside : Std.ExtTreeMap NodeId (List Node)}

theorem Holding.ids {a b : Node} (h : Holding inside a b) : HoldingId inside a.id b.id :=
  ⟨b, h, rfl⟩

theorem not_stepsTo_of_not_holdingId {b : NodeId} (h : ∀ a, ¬ HoldingId inside a b) {k : Nat}
    (hk : 0 < k) (a : NodeId) : ¬ StepsTo (HoldingId inside) k a b := by
  intro hab
  obtain ⟨k, rfl⟩ := Nat.exists_eq_succ_of_ne_zero hk.ne'
  obtain ⟨c, -, hcb⟩ := hab
  exact h c hcb

theorem heldBy_addInside (parent : NodeId) (n : Node) (a : NodeId) :
    heldBy (addInside inside parent n) a =
      heldBy inside a ++ if parent = a then [n] else [] := by
  simp only [heldBy, addInside, Std.ExtTreeMap.getElem?_insert, Std.LawfulEqCmp.compare_eq_iff_eq]
  split
  case isTrue h => rw [h, Option.getD_some]
  case isFalse => rw [List.append_nil]

theorem heldBy_foldl_addInside (parent : NodeId) (ns : List Node) (a : NodeId) :
    heldBy (ns.foldl (addInside · parent ·) inside) a =
      heldBy inside a ++ if parent = a then ns else [] := by
  induction ns generalizing inside with
  | nil => simp
  | cons n ns ih =>
    rw [List.foldl_cons, ih, heldBy_addInside, List.append_assoc]
    split <;> rfl

/-! ## Growing -/

namespace Outline

/-- The outline below a declaration, given the declarations directly inside each; `fuel` bounds its
depth. -/
def grow (inside : Std.ExtTreeMap NodeId (List Node)) : (fuel : Nat) → Node → Outline
  | 0, n => mk n []
  | fuel + 1, n => mk n ((sortBy sourceOrder (heldBy inside n.id)).map (grow inside fuel))

@[simp] theorem node_grow (fuel : Nat) (n : Node) : (grow inside fuel n).node = n := by
  cases fuel <;> rfl

theorem grow_succ (fuel : Nat) (n : Node) :
    grow inside (fuel + 1) n =
      .mk n ((sortBy sourceOrder (heldBy inside n.id)).map (grow inside fuel)) := rfl

theorem map_node_grow (fuel : Nat) (ns : List Node) :
    (ns.map (grow inside fuel)).map node = ns := by
  rw [List.map_map]
  simp [Function.comp_def]

theorem map_node_children_grow {fuel : Nat} (hfuel : 0 < fuel) (n : Node) :
    (grow inside fuel n).children.map node = sortBy sourceOrder (heldBy inside n.id) := by
  cases fuel with
  | zero => exact absurd hfuel (Nat.lt_irrefl 0)
  | succ fuel => rw [grow_succ, children, map_node_grow]

theorem parts_grow_zero (l : Nat) (n : Node) :
    parts l (grow inside 0 n) = [(grow inside 0 n, l)] := rfl

theorem parts_grow_succ (fuel l : Nat) (n : Node) :
    parts l (grow inside (fuel + 1) n) = (grow inside (fuel + 1) n, l) ::
      (sortBy sourceOrder (heldBy inside n.id)).flatMap fun c =>
        parts (l + 1) (grow inside fuel c) := by
  rw [grow, parts, partsOf_eq_flatMap, List.flatMap_map]

/-- Within an outline stand those that walks from its top lead to, as deep as these are long. -/
theorem mem_parts_grow {fuel l k : Nat} {a : Node} {o : Outline} :
    (o, k) ∈ parts l (grow inside fuel a) ↔ ∃ j b, k = l + j ∧ j ≤ fuel ∧
      StepsTo (Holding inside) j a b ∧ o = grow inside (fuel - j) b := by
  induction fuel generalizing l a with
  | zero =>
    rw [parts_grow_zero, List.mem_singleton, Prod.mk.injEq]
    constructor
    · rintro ⟨rfl, rfl⟩
      exact ⟨0, a, rfl, Nat.le_refl 0, rfl, rfl⟩
    · rintro ⟨j, b, rfl, hj, hab, rfl⟩
      obtain rfl : j = 0 := Nat.le_zero.1 hj
      exact ⟨by rw [show a = b from hab], rfl⟩
  | succ fuel ih =>
    simp only [parts_grow_succ, List.mem_cons, List.mem_flatMap, mem_sortBy, ih, Prod.mk.injEq]
    constructor
    · rintro (⟨rfl, rfl⟩ | ⟨c, hc, j, b, rfl, hj, hcb, rfl⟩)
      · exact ⟨0, a, rfl, Nat.zero_le _, rfl, rfl⟩
      · exact ⟨j + 1, b, by omega, by omega, StepsTo.cons hc hcb, by rw [Nat.add_sub_add_right]⟩
    · rintro ⟨j, b, rfl, hj, hab, rfl⟩
      cases j with
      | zero => exact .inl ⟨by rw [show a = b from hab]; rfl, rfl⟩
      | succ j =>
        obtain ⟨c, hac, hcb⟩ := StepsTo.succ_iff.1 hab
        exact .inr ⟨c, hac, j, b, by omega, by omega, hcb, by rw [Nat.add_sub_add_right]⟩

theorem mem_partsOf_grow {fuel l k : Nat} {ns : List Node} {o : Outline} :
    (o, k) ∈ partsOf l (ns.map (grow inside fuel)) ↔ ∃ a ∈ ns, ∃ j b, k = l + j ∧ j ≤ fuel ∧
      StepsTo (Holding inside) j a b ∧ o = grow inside (fuel - j) b := by
  simp only [partsOf_eq_flatMap, List.flatMap_map, List.mem_flatMap, mem_parts_grow]

theorem stepsTo_of_mem_parts_grow {fuel l : Nat} {a : Node} {id : NodeId}
    (h : id ∈ (parts l (grow inside fuel a)).map (·.1.node.id)) :
    ∃ j, StepsTo (HoldingId inside) j a.id id := by
  obtain ⟨⟨o, k⟩, ho, rfl⟩ := List.mem_map.1 h
  obtain ⟨j, b, -, -, hab, rfl⟩ := mem_parts_grow.1 ho
  rw [node_grow]
  exact ⟨j, hab.map (f := Node.id) fun _ _ => Holding.ids⟩

end Outline

/-! ## Nothing twice -/

theorem eq_of_mem_flatMap {α β : Type} {l : List α} {f : α → List β} (hnd : (l.flatMap f).Nodup)
    {p p' : α} (hp : p ∈ l) (hp' : p' ∈ l) {b : β} (hb : b ∈ f p) (hb' : b ∈ f p') : p = p' := by
  by_contra hne
  have hsymm : Std.Symm (Function.onFun List.Disjoint f) := ⟨fun _ _ hd _ hb hb' => hd hb' hb⟩
  exact (List.nodup_flatMap.1 hnd).2.forall hp hp' hne hb hb'

/-- No declaration is listed twice, neither inside one nor inside two. -/
structure Parted (inside : Std.ExtTreeMap NodeId (List Node)) : Prop where
  once : ∀ a, ((heldBy inside a).map (·.id)).Nodup
  single : ∀ a a' b, HoldingId inside a b → HoldingId inside a' b → a = a'

/-- Declarations that no walk joins, each there once. -/
structure Apart (inside : Std.ExtTreeMap NodeId (List Node)) (ns : List Node) : Prop where
  once : (ns.map (·.id)).Nodup
  unjoined : ∀ a ∈ ns, ∀ b ∈ ns, ∀ k, 0 < k → ¬ StepsTo (HoldingId inside) k a.id b.id

theorem Apart.of_not_holdingId {ns : List Node} (hns : (ns.map (·.id)).Nodup)
    (hunheld : ∀ n ∈ ns, ∀ a, ¬ HoldingId inside a n.id) : Apart inside ns where
  once := hns
  unjoined a _ b hb _ hk := not_stepsTo_of_not_holdingId (hunheld b hb) hk a.id

theorem Apart.sublist {ns ns' : List Node} (h : Apart inside ns) (hsub : ns'.Sublist ns) :
    Apart inside ns' where
  once := h.once.sublist (hsub.map _)
  unjoined a ha b hb := h.unjoined a (hsub.subset ha) b (hsub.subset hb)

namespace Parted

variable (h : Parted inside)
include h

/-- Walks from two declarations that none joins lead to different ones. -/
theorem ne_of_stepsTo {a a' b b' : NodeId} (hne : a ≠ a')
    (hapart : ∀ k, 0 < k → ¬ StepsTo (HoldingId inside) k a a')
    (hapart' : ∀ k, 0 < k → ¬ StepsTo (HoldingId inside) k a' a) {j j' : Nat}
    (hab : StepsTo (HoldingId inside) j a b) (hab' : StepsTo (HoldingId inside) j' a' b') :
    b ≠ b' := by
  rintro rfl
  -- the longer of two walks to one declaration leads through the start of the shorter
  rcases Nat.lt_trichotomy j j' with hlt | rfl | hlt
  · refine hapart' (j' - j) (by omega) (StepsTo.of_add h.single hab ?_)
    rwa [Nat.sub_add_cancel hlt.le]
  · refine hne (Eq.symm (StepsTo.of_add (k := 0) h.single hab ?_))
    rwa [Nat.zero_add]
  · refine hapart (j - j') (by omega) (StepsTo.of_add h.single hab' ?_)
    rwa [Nat.sub_add_cancel hlt.le]

theorem apart_held {a : NodeId} (hloop : ∀ k, 0 < k → ¬ StepsTo (HoldingId inside) k a a) :
    Apart inside (sortBy sourceOrder (heldBy inside a)) where
  once := ((perm_sortBy sourceOrder (heldBy inside a)).map Node.id).nodup_iff.2 (h.once a)
  unjoined c hc c' hc' k hk hcc' := by
    rw [mem_sortBy] at hc hc'
    obtain ⟨k, rfl⟩ := Nat.exists_eq_succ_of_ne_zero hk.ne'
    obtain ⟨d, hcd, hd⟩ := hcc'
    obtain rfl := h.single d a c'.id hd ⟨c', hc', rfl⟩
    exact hloop (k + 1) hk (StepsTo.cons ⟨c, hc, rfl⟩ hcd)

theorem nodup_flatMap_grow (fuel l : Nat) {ns : List Node} (hns : Apart inside ns)
    (heach : ∀ a ∈ ns, ((Outline.parts l (Outline.grow inside fuel a)).map (·.1.node.id)).Nodup) :
    (ns.flatMap fun a =>
      (Outline.parts l (Outline.grow inside fuel a)).map (·.1.node.id)).Nodup := by
  refine List.nodup_flatMap.2 ⟨heach, ?_⟩
  refine (List.pairwise_map.1 hns.once).imp_of_mem fun {a b} ha hb hne => ?_
  intro id hid hid'
  obtain ⟨j, hj⟩ := Outline.stepsTo_of_mem_parts_grow hid
  obtain ⟨j', hj'⟩ := Outline.stepsTo_of_mem_parts_grow hid'
  exact h.ne_of_stepsTo hne (hns.unjoined a ha b hb) (hns.unjoined b hb a ha) hj hj' rfl

theorem nodup_parts_grow (fuel l : Nat) {a : Node}
    (hloop : ∀ k, 0 < k → ¬ StepsTo (HoldingId inside) k a.id a.id) :
    ((Outline.parts l (Outline.grow inside fuel a)).map (·.1.node.id)).Nodup := by
  induction fuel generalizing l a with
  | zero =>
    rw [Outline.parts_grow_zero]
    exact List.nodup_singleton _
  | succ fuel ih =>
    rw [Outline.parts_grow_succ, List.map_cons, List.map_flatMap, Outline.node_grow,
      List.nodup_cons]
    constructor
    · -- a walk from a declaration inside back to the top would be a loop
      intro hmem
      obtain ⟨c, hc, hid⟩ := List.mem_flatMap.1 hmem
      obtain ⟨j, hj⟩ := Outline.stepsTo_of_mem_parts_grow hid
      exact hloop (j + 1) (Nat.succ_pos j) (StepsTo.cons ⟨c, (mem_sortBy _ _).1 hc, rfl⟩ hj)
    · have hheld := h.apart_held hloop
      exact h.nodup_flatMap_grow fuel (l + 1) hheld fun c hc =>
        ih (l + 1) (hheld.unjoined c hc c hc)

/-- **What is grown from declarations that no walk joins holds none twice.** -/
theorem nodup_partsOf_grow (fuel l : Nat) {ns : List Node} (hns : Apart inside ns) :
    ((Outline.partsOf l (ns.map (Outline.grow inside fuel))).map (·.1.node.id)).Nodup := by
  rw [Outline.partsOf_eq_flatMap, List.flatMap_map, List.map_flatMap]
  exact h.nodup_flatMap_grow fuel l hns fun a ha =>
    h.nodup_parts_grow fuel l (hns.unjoined a ha a ha)

end Parted

end CodeGraph

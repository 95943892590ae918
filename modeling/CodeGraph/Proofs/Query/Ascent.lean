import CodeGraph.Proofs.Query.Containment
import CodeGraph.Query.Outline
import Mathlib.Data.Fintype.Card
import Mathlib.Data.Set.Finite.List

/-!
# Climbing from container to container

Each identifier has one container at most, so the ways up through containment do not branch: one
ends at an identifier without a container, or runs into a circle.

* `exists_last`: in a finite set, steps that lead back to none of their starts come to an end.
* `Store.Acyclic`: no declaration is above itself; a rank that falls from declaration to container
  excludes it (`Store.acyclic_of_rank`).
* `Store.NearestContainer`: the first of some identifiers on the way up; what the chain of
  containers finds (`Store.containerAmong?_eq_some_iff`, `Store.containerAmong?_eq_none_iff`).
-/

namespace CodeGraph

open Std

/-- In a finite set that steps do not leave, steps that lead from no member back to it end. -/
theorem exists_last {α : Type} {R : α → α → Prop} {S : Set α} (hS : S.Finite)
    (hstay : ∀ a ∈ S, ∀ b, R a b → b ∈ S) (hloop : ∀ a ∈ S, ¬ Relation.TransGen R a a) {a : α}
    (ha : a ∈ S) : ∃ b ∈ S, Relation.ReflTransGen R a b ∧ ∀ c, ¬ R b c := by
  have hfinite : Finite S := hS
  have htrans : IsTrans S fun x y => Relation.TransGen R y x := ⟨fun _ _ _ hyx hzy => hzy.trans hyx⟩
  have hirrefl : Std.Irrefl fun x y : S => Relation.TransGen R y x := ⟨fun x => hloop x x.2⟩
  have hwf := Finite.wellFounded_of_trans_of_irrefl fun x y : S => Relation.TransGen R y x
  refine hwf.induction (C := fun x => ∃ b ∈ S, Relation.ReflTransGen R x b ∧ ∀ c, ¬ R b c)
    ⟨a, ha⟩ fun x ih => ?_
  by_cases hx : ∃ c, R x c
  · obtain ⟨c, hc⟩ := hx
    obtain ⟨b, hb, hcb, hend⟩ := ih ⟨c, hstay x x.2 c hc⟩ (.single hc)
    exact ⟨b, hb, .head hc hcb, hend⟩
  · exact ⟨x, x.2, .refl, fun c hc => hx ⟨c, hc⟩⟩

namespace Store

variable {s : Store}

/-! ## Ways up -/

theorem finite_hasNode (hs : s.Coherent) : {id | s.hasNode id = true}.Finite := by
  refine (List.finite_toSet (s.allNodes.map (·.id))).subset fun id hid => ?_
  exact (mem_map_id_allNodes hs).2 hid

/-- Taking the container again and again leads from no declaration back to it. Identifiers that are
not in the store may contain each other. -/
def Acyclic (s : Store) : Prop := ∀ id, s.hasNode id = true → ¬ Relation.TransGen s.Within id id

theorem rightUnique_within (s : Store) : Relator.RightUnique s.Within := fun _ _ _ hb hc =>
  Option.some_inj.1 (hb.symm.trans hc)

theorem acyclic_of_rank (hs : s.Coherent) (rank : NodeId → Nat)
    (hrank : ∀ e ∈ s.allEdges, e.kind = .contains → rank e.source < rank e.target) :
    s.Acyclic := by
  have hfalls : ∀ a b, s.Within a b → rank b < rank a := by
    intro a b hab
    obtain ⟨e, he, hkind, rfl, rfl⟩ := Within.holds hs hab
    exact hrank e he (List.mem_singleton.1 hkind)
  intro id _ hid
  have hlt : Relation.TransGen (fun m n : Nat => n < m) (rank id) (rank id) :=
    Relation.TransGen.lift rank hfalls _ _ hid
  rw [Relation.transGen_eq_self] at hlt
  exact Nat.lt_irrefl _ hlt

theorem reaches_back {a b : NodeId} (hloop : Relation.TransGen s.Within a a)
    (hab : Relation.ReflTransGen s.Within a b) : Relation.ReflTransGen s.Within b a := by
  induction hab with
  | refl => exact .refl
  | @tail b c _ hbc ih =>
    obtain ⟨c', hbc', hca⟩ := Relation.TransGen.head'_iff.1 (Relation.TransGen.trans_right ih hloop)
    obtain rfl := s.rightUnique_within hbc hbc'
    exact hca

/-! ## The nearest container of some -/

/-- The second identifier is the first of some that taking the container again and again leads to
from the first. -/
inductive NearestContainer (s : Store) (among : NodeId → Prop) : NodeId → NodeId → Prop
  | here {a p : NodeId} (h : s.Within a p) (hp : among p) : NearestContainer s among a p
  | above {a b p : NodeId} (h : s.Within a b) (hb : ¬ among b) (hp : NearestContainer s among b p) :
      NearestContainer s among a p

namespace NearestContainer

variable {among : NodeId → Prop} {a p : NodeId}

theorem mem (h : s.NearestContainer among a p) : among p := by
  induction h with
  | here _ hp => exact hp
  | above _ _ _ ih => exact ih

theorem reaches (h : s.NearestContainer among a p) : Relation.TransGen s.Within a p := by
  induction h with
  | here hap _ => exact .single hap
  | above hab _ _ ih => exact .head hab ih

theorem unique {q : NodeId} (hp : s.NearestContainer among a p)
    (hq : s.NearestContainer among a q) : p = q := by
  induction hp with
  | here hap hp =>
    cases hq with
    | here haq _ => exact s.rightUnique_within hap haq
    | above hab hb _ => exact absurd (s.rightUnique_within hap hab ▸ hp) hb
  | above hab hb _ ih =>
    cases hq with
    | here haq hq => exact absurd (s.rightUnique_within haq hab ▸ hq) hb
    | above hab' _ hq => exact ih (s.rightUnique_within hab' hab ▸ hq)

end NearestContainer

theorem nearestContainer_of_find? {among : NodeId → Bool} {p : NodeId} (fuel : Nat)
    {visited : ExtTreeSet NodeId} {current : NodeId}
    (h : (s.containersFrom fuel visited current).find? among = some p) :
    s.NearestContainer (among · = true) current p := by
  induction fuel generalizing visited current with
  | zero => cases h
  | succ fuel ih =>
    rw [containersFrom] at h
    cases hparent : s.container? current with
    | none =>
      rw [hparent] at h
      cases h
    | some parent =>
      rw [hparent] at h
      dsimp only at h
      split at h
      case isTrue => cases h
      case isFalse =>
        rw [List.find?_cons] at h
        split at h
        case h_1 hfound =>
          obtain rfl := Option.some_inj.1 h
          exact .here hparent hfound
        case h_2 hnot => exact .above hparent (by simp [hnot]) (ih h)

section Among

variable {among : ExtTreeSet NodeId} {id : NodeId}

theorem containerAmong?_eq_none_iff (hs : s.Coherent) :
    s.containerAmong? among id = none ↔
      ∀ p, Relation.TransGen s.Within id p → p ≠ id → p ∉ among := by
  simp only [containerAmong?, List.find?_eq_none, mem_containerChain hs,
    Relation.reflTransGen_iff_eq_or_transGen, ExtTreeSet.contains_iff_mem]
  grind

/-- Of some identifiers the nearest on the way up is found, unless a circle leads back first. -/
theorem containerAmong?_eq_some_iff (hs : s.Coherent) {p : NodeId} :
    s.containerAmong? among id = some p ↔ s.NearestContainer (· ∈ among) id p ∧ p ≠ id := by
  have hnearest : ∀ q, s.containerAmong? among id = some q →
      s.NearestContainer (· ∈ among) id q ∧ q ≠ id := by
    intro q hq
    refine ⟨by simpa using nearestContainer_of_find? _ hq, ?_⟩
    exact ((mem_containerChain hs).1 (List.mem_of_find?_eq_some hq)).1
  refine ⟨hnearest p, ?_⟩
  rintro ⟨hp, hne⟩
  cases hfound : s.containerAmong? among id with
  | none => exact absurd hp.mem ((containerAmong?_eq_none_iff hs).1 hfound p hp.reaches hne)
  | some q => rw [(hnearest q hfound).1.unique hp]

end Among

end Store

end CodeGraph

import CodeGraph.Proofs.Query.Neighbours
import Mathlib.Data.List.TakeWhile

/-!
# Containment read from above and from below

The declarations inside one are found by a breadth-first search along the outgoing containment
edges, those around one by following the first containment edge into each. Both stop at what they have met,
so cycles of containment do no harm.

* `Store.Holds`, `Store.Within`: the two relations.
* `Store.mem_descendants`, `Store.mem_containerChain`: what the two searches find.
* `Store.Nested`: containment edges end at declarations, at most one at each; then the relations are
  converse (`Store.Nested.within_iff`).
* **`Store.run_listByKind_scoped`**: after any sequence of operations that leaves containment
  nested, what is listed within a scope is what has the scope among its ancestors.
-/

namespace CodeGraph

open Std

namespace Store

variable {s : Store}

/-- A containment edge leads from the first to the second. -/
def Holds (s : Store) (a b : NodeId) : Prop := s.Leads [.contains] .targets a b

/-- The first containment edge into the first comes from the second. -/
def Within (s : Store) (a b : NodeId) : Prop := s.container? a = some b

theorem mem_contained (hs : s.Coherent) {a b : NodeId} : b ∈ s.contained a ↔ s.Holds a b := by
  simp only [contained, hs.outgoingEdges_eq, Holds, Leads, Towards.start, Towards.finish,
    List.mem_map, List.mem_filter, List.mem_singleton, beq_iff_eq]
  grind

theorem holds_iff_sources (a b : NodeId) : s.Holds a b ↔ s.Leads [.contains] .sources b a := by
  simp only [Holds, Leads, Towards.start, Towards.finish]
  grind

theorem Within.holds (hs : s.Coherent) {a b : NodeId} (h : s.Within a b) : s.Holds b a := by
  obtain ⟨e, he, rfl⟩ := Option.map_eq_some_iff.1 h
  have hmem := List.mem_of_find?_eq_some he
  rw [hs.incomingEdges_eq, List.mem_filter, beq_iff_eq] at hmem
  exact ⟨e, hmem.1, by simpa using List.find?_some he, rfl, hmem.2⟩

/-! ## From above -/

/-- The identifiers in a declaration that are not the root of a search. -/
def inward (root : NodeId) (ids : List NodeId) : List (NodeId × EdgeKind) :=
  (ids.filter (· != root)).map (·, .contains)

theorem foldl_inward (root : NodeId) (ids : List NodeId) (seen : ExtTreeSet NodeId)
    (queue : List NodeId) :
    ids.foldl (fun (seen, queue) child =>
        if child == root || seen.contains child then (seen, queue)
        else (seen.insert child, queue ++ [child])) (seen, queue) =
      ((pickFresh seen (inward root ids)).1,
        queue ++ (pickFresh seen (inward root ids)).2.map (·.1)) := by
  induction ids generalizing seen queue with
  | nil => simp [inward, pickFresh]
  | cons id ids ih =>
    rw [List.foldl_cons]
    by_cases hroot : id = root
    · simpa [inward, hroot] using ih seen queue
    · have hcons : inward root (id :: ids) = (id, .contains) :: inward root ids := by
        simp [inward, hroot]
      rw [hcons, pickFresh]
      by_cases hseen : seen.contains id = true
      · simpa [hseen] using ih seen queue
      · simpa [hroot, hseen] using ih (seen.insert id) (queue ++ [id])

/-- The search for what is inside a declaration, under way. -/
structure Descent (s : Store) (root : NodeId) (done queue : List (NodeId × Nat))
    (seen : ExtTreeSet NodeId) : Prop where
  frontier : Frontier s.Holds (fun _ => True) root done queue
  seen : ∀ id, id ∈ seen ↔ id ≠ root ∧ id ∈ (done ++ queue).map (·.1)

namespace Descent

variable {root : NodeId} {done queue : List (NodeId × Nat)} {seen : ExtTreeSet NodeId}

theorem turn (hs : s.Coherent) {a : NodeId} {l : Nat}
    (h : Descent s root done ((a, l) :: queue) seen) :
    Descent s root (done ++ [(a, l)])
      (queue ++ ((pickFresh seen (inward root (s.contained a))).2.map (·.1)).map (·, l + 1))
      (pickFresh seen (inward root (s.contained a))).1 := by
  have hroot : root ∈ (done ++ (a, l) :: queue).map (·.1) := List.mem_map_of_mem h.frontier.root_mem
  have hmem : ∀ b, b ∈ (inward root (s.contained a)).map (·.1) ↔ b ≠ root ∧ s.Holds a b := by
    intro b
    simp [inward, mem_contained hs, and_comm]
  constructor
  case frontier =>
    refine h.frontier.expand trivial (nodup_pickFresh _ _) fun b => ?_
    rw [mem_pickFresh, hmem, h.seen]
    constructor
    · rintro ⟨⟨hne, hb⟩, hnew⟩
      exact ⟨hb, fun hmet => hnew ⟨hne, hmet⟩⟩
    · rintro ⟨hb, hnew⟩
      exact ⟨⟨fun heq => hnew (heq ▸ hroot), hb⟩, fun hmet => hnew hmet.2⟩
  case seen =>
    intro id
    have happ : ∀ new, done ++ [(a, l)] ++ (queue ++ new) = done ++ (a, l) :: queue ++ new := by
      simp
    have hfresh : id ∈ (pickFresh seen (inward root (s.contained a))).2.map (·.1) → id ≠ root :=
      fun hid => ((hmem id).1 ((mem_pickFresh _ _ id).1 hid).1).1
    rw [happ, List.map_append, List.mem_append, mem_pickFresh_visited, h.seen, List.map_map]
    simp only [Function.comp_def, List.map_id']
    tauto

theorem run (hs : s.Coherent) (fuel : Nat) (h : Descent s root done queue seen)
    (hfuel : s.edgeCount + 1 ≤ fuel + done.length) :
    ∃ done', Descent s root done' [] (s.descendantsFrom root fuel seen (queue.map (·.1))) := by
  -- every turn adds to what is done with, and all of it but the root are ends of edges
  induction fuel generalizing done queue seen with
  | zero =>
    have hle :=
      length_le_of_frontier_of_ends [.contains] .targets (fun a _ hab => ⟨a, hab⟩) h.frontier
    rw [List.length_append] at hle
    obtain rfl : queue = [] := List.length_eq_zero_iff.1 (by omega)
    exact ⟨done, h⟩
  | succ fuel ih =>
    cases queue with
    | nil => exact ⟨done, h⟩
    | cons p queue =>
      obtain ⟨a, l⟩ := p
      have hnext := ih (h.turn hs) (by rw [List.length_append, List.length_singleton]; omega)
      rw [List.map_cons, descendantsFrom, foldl_inward]
      simpa [Function.comp_def] using hnext

end Descent

theorem mem_descendants (hs : s.Coherent) {root id : NodeId} :
    id ∈ s.descendants root ↔ id ≠ root ∧ Relation.ReflTransGen s.Holds root id := by
  have hstart : Descent s root [] [(root, 0)] ∅ := ⟨.start _ _ _, by simp⟩
  obtain ⟨done, h⟩ := hstart.run hs (s.edgeCount + 1) (by simp)
  refine (h.seen id).trans ?_
  rw [List.append_nil, h.frontier.mem_iff_reaches fun _ => trivial]

/-! ## From below -/

/-- Following the containers of a declaration is a search that queues one identifier at a time. -/
theorem frontier_containersFrom (hs : s.Coherent) {root current : NodeId} {l : Nat} (fuel : Nat)
    {done : List (NodeId × Nat)} {visited : ExtTreeSet NodeId}
    (h : Frontier s.Within (fun _ => True) root done [(current, l)])
    (hvisited : ∀ id, id ∈ visited ↔ id ∈ (done ++ [(current, l)]).map (·.1))
    (hfuel : s.edgeCount + 1 ≤ fuel + done.length) :
    ∃ rest, rest.map (·.1) = s.containersFrom fuel visited current ∧
      Frontier s.Within (fun _ => True) root (done ++ (current, l) :: rest) [] := by
  induction fuel generalizing done visited current l with
  | zero =>
    have hle := length_le_of_frontier_of_ends [.contains] .sources
      (fun a _ hab => ⟨a, (holds_iff_sources _ _).1 (Within.holds hs hab)⟩) h
    rw [List.length_append, List.length_singleton] at hle
    omega
  | succ fuel ih =>
    rw [containersFrom]
    cases hparent : s.container? current with
    | none =>
      refine ⟨[], rfl, h.stop fun _ b hb => ?_⟩
      rw [Within, hparent] at hb
      cases hb
    | some parent =>
      have honly : ∀ b, s.Within current b ↔ b = parent := by
        intro b
        rw [Within, hparent, Option.some_inj, eq_comm]
      dsimp only
      by_cases hmet : parent ∈ visited
      · rw [if_pos (by simpa using hmet)]
        have hnone : ∀ b, b ∈ ([] : List NodeId) ↔
            s.Within current b ∧ b ∉ (done ++ [(current, l)]).map (·.1) := by
          intro b
          rw [honly, iff_false_left List.not_mem_nil]
          rintro ⟨rfl, hnew⟩
          exact hnew ((hvisited b).1 hmet)
        exact ⟨[], rfl, h.expand trivial List.nodup_nil hnone⟩
      · rw [if_neg (by simpa using hmet)]
        have hone : ∀ b, b ∈ [parent] ↔
            s.Within current b ∧ b ∉ (done ++ [(current, l)]).map (·.1) := by
          intro b
          rw [honly, List.mem_singleton, iff_self_and]
          rintro rfl hold
          exact hmet ((hvisited b).2 hold)
        have hvisited' : ∀ id, id ∈ visited.insert parent ↔
            id ∈ (done ++ [(current, l)] ++ [(parent, l + 1)]).map (·.1) := by
          intro id
          rw [List.map_append, List.mem_append, ← hvisited, or_comm]
          simpa using or_congr_left eq_comm
        obtain ⟨rest, hrest, hdone⟩ :=
          ih (h.expand trivial (List.nodup_singleton _) hone) hvisited' (by
            rw [List.length_append, List.length_singleton]
            omega)
        refine ⟨(parent, l + 1) :: rest, by rw [List.map_cons, hrest], ?_⟩
        rwa [← List.append_cons] at hdone

theorem mem_containerChain (hs : s.Coherent) {id a : NodeId} :
    a ∈ s.containerChain id ↔ a ≠ id ∧ Relation.ReflTransGen s.Within id a := by
  have hvisited : ∀ b, b ∈ ExtTreeSet.ofList [id] ↔
      b ∈ (([] : List (NodeId × Nat)) ++ [(id, 0)]).map Prod.fst :=
    fun b => by simpa using eq_comm
  obtain ⟨rest, hrest, h⟩ := frontier_containersFrom hs (s.edgeCount + 1)
    (Frontier.start s.Within (fun _ => True) id) hvisited (by simp)
  have honce : (id :: rest.map (·.1)).Nodup := by simpa using h.once
  rw [containerChain, ← hrest, ← h.mem_iff_reaches fun _ => trivial, List.nil_append,
    List.map_cons, List.mem_cons]
  constructor
  · intro ha
    refine ⟨?_, .inr ha⟩
    rintro rfl
    exact (List.nodup_cons.1 honce).1 ha
  · rintro ⟨hne, ha⟩
    exact ha.resolve_left hne

/-! ## Nested containment -/

/-- Containment edges end at declarations, and at most one of them at each. -/
structure Nested (s : Store) : Prop where
  ends : ∀ e ∈ s.allEdges, e.kind = .contains →
    s.hasNode e.source = true ∧ s.hasNode e.target = true
  single : ∀ e ∈ s.allEdges, ∀ e' ∈ s.allEdges, e.kind = .contains → e'.kind = .contains →
    e.target = e'.target → e = e'

namespace Nested

variable (h : s.Nested)
include h

theorem hasNode_of_holds {a b : NodeId} (hab : s.Holds a b) :
    s.hasNode a = true ∧ s.hasNode b = true := by
  obtain ⟨e, he, hkind, rfl, rfl⟩ := hab
  exact h.ends e he (List.mem_singleton.1 hkind)

theorem within_iff (hs : s.Coherent) {a b : NodeId} : s.Within a b ↔ s.Holds b a := by
  refine ⟨Within.holds hs, ?_⟩
  rintro ⟨e, he, hkind, rfl, rfl⟩
  have hcontains : e.kind = .contains := List.mem_singleton.1 hkind
  have hmem : e ∈ s.incomingEdges e.target := by
    rw [hs.incomingEdges_eq, List.mem_filter]
    exact ⟨he, beq_self_eq_true _⟩
  change ((s.incomingEdges e.target).find? (·.kind == .contains)).map (·.source) = some e.source
  cases hfound : (s.incomingEdges e.target).find? (·.kind == .contains) with
  | none => exact absurd (List.find?_eq_none.1 hfound e hmem) (by simp [hcontains])
  | some e' =>
    have hmem' := List.mem_of_find?_eq_some hfound
    rw [hs.incomingEdges_eq, List.mem_filter, beq_iff_eq] at hmem'
    have hkind' : e'.kind = .contains := by simpa using List.find?_some hfound
    rw [h.single e' hmem'.1 e he hkind' hcontains hmem'.2, Option.map_some]

/-- One declaration is inside another exactly if this is around it, also on a cycle. -/
theorem mem_containerChain_iff (hs : s.Coherent) {id scope : NodeId} :
    scope ∈ s.containerChain id ↔ id ∈ s.descendants scope := by
  have hswap : s.Within = Function.swap s.Holds := by
    funext a b
    exact propext (h.within_iff hs)
  rw [mem_containerChain hs, mem_descendants hs, hswap, Relation.reflTransGen_swap, ne_comm]

theorem hasNode_of_mem_containerChain (hs : s.Coherent) {id a : NodeId}
    (ha : a ∈ s.containerChain id) : s.hasNode a = true := by
  obtain ⟨hne, hreach⟩ := (mem_containerChain hs).1 ha
  rcases Relation.ReflTransGen.cases_tail hreach with rfl | ⟨b, -, hba⟩
  · exact absurd rfl hne
  · exact (h.hasNode_of_holds (hba.holds hs)).1

theorem mem_ancestors (hs : s.Coherent) {id : NodeId} (hid : s.hasNode id = true) :
    ∃ above, s.ancestors id = some above ∧
      ∀ n, n ∈ above ↔ s.node? n.id = some n ∧ n.id ∈ s.containerChain id := by
  refine ⟨_, if_pos hid, fun n => ?_⟩
  have hall : (s.containerChain id).takeWhile s.hasNode = s.containerChain id :=
    List.takeWhile_eq_self_iff.2 fun a ha => h.hasNode_of_mem_containerChain hs ha
  rw [hall, List.mem_reverse, List.mem_filterMap]
  constructor
  · rintro ⟨a, ha, hn⟩
    obtain rfl := hs.node_id hn
    exact ⟨hn, ha⟩
  · rintro ⟨hn, ha⟩
    exact ⟨n.id, ha, hn⟩

end Nested

/-! ## Lists within a scope -/

theorem mem_listByKind (hs : s.Coherent) {scope : NodeId} (hscope : s.hasNode scope = true)
    (kind : NodeKind) {limit : Nat} (hlimit : s.nodeCount ≤ limit) :
    ∃ page, s.listByKind kind (some scope) limit = some page ∧ page.truncated = false ∧
      ∀ n, n ∈ page.items ↔
        s.node? n.id = some n ∧ n.kind = kind ∧ n.id ∈ s.descendants scope := by
  have hlen : (sortBy nameOrder ((s.nodesByKind kind).filter fun n =>
      (s.descendants scope).contains n.id)).length ≤ limit := by
    rw [sortBy, List.length_mergeSort]
    refine ((List.length_filter_le _ _).trans (List.length_filter_le _ _)).trans ?_
    rwa [length_allNodes]
  refine ⟨_, if_pos hscope, by simpa [Page.ofList] using hlen, fun n => ?_⟩
  simp only [Page.ofList, List.take_of_length_le hlen]
  simp only [sortBy, List.mem_mergeSort, List.mem_filter, nodesByKind, mem_allNodes hs, beq_iff_eq,
    ExtTreeSet.contains_iff_mem, and_assoc]

/-- **After any sequence of operations that leaves containment nested, a list within a scope agrees
with ancestry.** With room for all declarations, those of a kind that are listed within a scope are
those that have the scope among their ancestors, also where containment runs in a circle. -/
theorem run_listByKind_scoped (ops : List Operation) (hnested : (run ops).Nested) {scope : Node}
    (hscope : (run ops).node? scope.id = some scope) (kind : NodeKind) {limit : Nat}
    (hlimit : (run ops).nodeCount ≤ limit) :
    ∃ page, (run ops).listByKind kind (some scope.id) limit = some page ∧
      page.truncated = false ∧
      ∀ n, n ∈ page.items ↔ (run ops).node? n.id = some n ∧ n.kind = kind ∧
        ∃ above, (run ops).ancestors n.id = some above ∧ scope ∈ above := by
  have hs := coherent_run ops
  obtain ⟨page, hpage, hwhole, hmem⟩ :=
    mem_listByKind hs (hasNode_iff.2 ⟨scope, hscope⟩) kind hlimit
  refine ⟨page, hpage, hwhole, fun n => ?_⟩
  rw [hmem, and_congr_right_iff]
  refine fun hn => and_congr_right fun _ => ?_
  obtain ⟨above, habove, hchain⟩ := hnested.mem_ancestors hs (hasNode_iff.2 ⟨n, hn⟩)
  rw [← hnested.mem_containerChain_iff hs, habove]
  simp only [Option.some_inj, exists_eq_left', hchain, hscope, true_and]

/-- A declaration of a containment. -/
def boxNode (kind : NodeKind) (id : NodeId) : Node :=
  { id, name := id, qualifiedName := id, kind, file := ⟨"b.cs"⟩ }

/-- Two classes that contain each other, and a method in the second. -/
def boxes : List Operation :=
  [.addNodes [boxNode .classType "a", boxNode .classType "b", boxNode .method "m"],
   .addEdges ([("a", "b"), ("b", "a"), ("b", "m")].map fun e =>
     { id := e.1 ++ e.2, source := e.1, target := e.2, kind := .contains })]

/-- The method is listed within the first class, which is among its ancestors. -/
theorem run_listByKind_scoped_boxes :
    (run boxes).Nested ∧ (run boxes).node? "a" = some (boxNode .classType "a") ∧
    (run boxes).nodeCount ≤ 3 ∧
    ∃ page above, (run boxes).listByKind .method (some "a") 3 = some page ∧
      (run boxes).ancestors "m" = some above ∧ boxNode .classType "a" ∈ above ∧
      boxNode .method "m" ∈ page.items := by
  have hnested : (run boxes).Nested := ⟨by decide +kernel, by decide +kernel⟩
  have hscope : (run boxes).node? (boxNode .classType "a").id = some (boxNode .classType "a") := by
    decide +kernel
  have hmethod : (run boxes).node? "m" = some (boxNode .method "m") := by decide +kernel
  have hroom : (run boxes).nodeCount ≤ 3 := by decide +kernel
  obtain ⟨page, hpage, -, hmem⟩ :=
    run_listByKind_scoped boxes hnested hscope .method hroom
  have habove : (run boxes).ancestors "m" =
      some [boxNode .classType "a", boxNode .classType "b"] := by decide +kernel
  exact ⟨hnested, hscope, hroom, page, _, hpage, habove, by decide,
    (hmem (boxNode .method "m")).2 ⟨hmethod, rfl, _, habove, by decide⟩⟩

end Store

end CodeGraph

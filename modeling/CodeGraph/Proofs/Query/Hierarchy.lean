import CodeGraph.Proofs.Query.Layers

/-!
# Inheritance walks

An inheritance walk lists the type on top of its stack and puts what it leads to in its place, one
level deeper. So the depths on the stack fall towards its bottom, and when a type is listed the one
that stacked it is still the last listed at its depth: the parent of an entry can be read off the
depths. It is also the first listed above the greatest depth that leads to the type, since a type is
stacked by the first that finds it.

* `Store.takenUp`: what a walk stacks when it lists a type.
* `Store.Hangs`: the entry that an identifier was stacked by.
* `InheritanceSearch`: a walk under way, kept by one turn (`InheritanceSearch.skip`,
  `InheritanceSearch.list`) and so by a run (`InheritanceSearch.run`).
* `InheritanceSearch.exists_above`, `InheritanceSearch.mem_of_leads`: what a finished walk lists
  hangs from what it lists, and what this leads to is listed.
-/

namespace CodeGraph

open Std

/-! ## One turn of a walk -/

namespace Store

variable {s : Store} {t : Towards} {maxDepth fuel : Nat} {visited : ExtTreeSet NodeId}
  {stack : List InheritanceStep} {q : InheritanceStep}

/-- The visited identifiers once a type is listed, and those it makes the walk stack. -/
def takenUp (s : Store) (t : Towards) (maxDepth : Nat) (visited : ExtTreeSet NodeId)
    (q : InheritanceStep) : ExtTreeSet NodeId × List (NodeId × EdgeKind) :=
  if q.depth < maxDepth then pickFresh visited (s.neighbors q.id inheritanceKinds t)
  else (visited, [])

/-- The steps that a type makes the walk stack. -/
def deeper (s : Store) (t : Towards) (maxDepth : Nat) (visited : ExtTreeSet NodeId)
    (q : InheritanceStep) : List InheritanceStep :=
  (s.takenUp t maxDepth visited q).2.map fun n => ⟨n.1, n.2, q.depth + 1⟩

theorem inheritanceFrom_nil : s.inheritanceFrom t maxDepth fuel visited [] = [] := by
  cases fuel <;> rfl

theorem inheritanceFrom_missing (hq : s.node? q.id = none) :
    s.inheritanceFrom t maxDepth (fuel + 1) visited (q :: stack) =
      s.inheritanceFrom t maxDepth fuel visited stack := by
  rw [inheritanceFrom, hq]

theorem inheritanceFrom_found {node : Node} (hq : s.node? q.id = some node) :
    s.inheritanceFrom t maxDepth (fuel + 1) visited (q :: stack) =
      ⟨node, q.relationship, q.depth⟩ ::
        s.inheritanceFrom t maxDepth fuel (s.takenUp t maxDepth visited q).1
          (s.deeper t maxDepth visited q ++ stack) := by
  rw [inheritanceFrom, hq]
  dsimp only
  unfold deeper takenUp
  split <;> rfl

theorem mem_takenUp_visited (id : NodeId) :
    id ∈ (s.takenUp t maxDepth visited q).1 ↔
      id ∈ visited ∨ id ∈ (s.deeper t maxDepth visited q).map (·.id) := by
  unfold deeper takenUp
  split
  · simp only [List.map_map, mem_pickFresh_visited]
    rfl
  · simp

theorem mem_deeper (hs : s.Coherent) (id : NodeId) :
    id ∈ (s.deeper t maxDepth visited q).map (·.id) ↔
      q.depth < maxDepth ∧ s.Leads inheritanceKinds t q.id id ∧ id ∉ visited := by
  unfold deeper takenUp
  split
  case isTrue hq =>
    rw [List.map_map, and_iff_right hq, ← mem_neighbors hs, ← mem_pickFresh]
    rfl
  case isFalse hq => simp [hq]

theorem nodup_deeper : ((s.deeper t maxDepth visited q).map (·.id)).Nodup := by
  unfold deeper takenUp
  split
  · rw [List.map_map]
    exact nodup_pickFresh _ _
  · simp

theorem of_mem_deeper (hs : s.Coherent) {c : InheritanceStep}
    (hc : c ∈ s.deeper t maxDepth visited q) :
    c.depth = q.depth + 1 ∧ c.relationship ∈ inheritanceKinds ∧
      s.Leads [c.relationship] t q.id c.id := by
  unfold deeper takenUp at hc
  split at hc
  · obtain ⟨n, hn, rfl⟩ := List.mem_map.1 hc
    exact ⟨rfl, leads_of_mem_neighbors hs (mem_of_mem_pickFresh _ _ hn)⟩
  · simp at hc

/-! ## Where a type hangs -/

/-- The step at which a walk stands before its first turn. -/
def rootStep (root : NodeId) : InheritanceStep := ⟨root, .inherits, 0⟩

/-- An identifier hangs from an entry one level above it: the last listed at its depth, and the
first above the greatest depth that leads to the identifier. -/
def Hangs (s : Store) (t : Towards) (maxDepth : Nat) (listed : List InheritanceEntry)
    (q : InheritanceStep) : Prop :=
  ∃ before p after, listed = before ++ p :: after ∧
    q.depth = p.depth + 1 ∧ p.depth < maxDepth ∧
    q.relationship ∈ inheritanceKinds ∧ s.Leads [q.relationship] t p.node.id q.id ∧
    (∀ e ∈ before, e.depth < maxDepth → ¬ s.Leads inheritanceKinds t e.node.id q.id) ∧
    ∀ e ∈ after, e.depth ≠ p.depth

theorem Hangs.concat {listed : List InheritanceEntry} (h : s.Hangs t maxDepth listed q)
    {e : InheritanceEntry} (he : q.depth ≤ e.depth) : s.Hangs t maxDepth (listed ++ [e]) q := by
  obtain ⟨before, p, after, rfl, hdepth, hmax, hkind, hleads, hfirst, hlast⟩ := h
  refine ⟨before, p, after ++ [e], by simp, hdepth, hmax, hkind, hleads, hfirst, ?_⟩
  intro e' he'
  rcases List.mem_append.1 he' with he' | he'
  · exact hlast e' he'
  · obtain rfl := List.mem_singleton.1 he'
    omega

end Store

/-- The step at which an entry was listed. -/
def InheritanceEntry.step (e : InheritanceEntry) : InheritanceStep :=
  ⟨e.node.id, e.relationship, e.depth⟩

/-! ## A walk under way -/

/-- The identifiers that a walk has met: those of its entries, those that name no declaration, and
those on the stack. -/
def metIds (listed : List InheritanceEntry) (unknown : List NodeId)
    (stack : List InheritanceStep) : List NodeId :=
  listed.map (·.node.id) ++ unknown ++ stack.map (·.id)

/-- What holds of a walk that has listed some entries, its root first. -/
structure InheritanceSearch (s : Store) (t : Towards) (maxDepth : Nat) (root : NodeId)
    (listed : List InheritanceEntry) (unknown : List NodeId) (visited : ExtTreeSet NodeId)
    (stack : List InheritanceStep) : Prop where
  once : (metIds listed unknown stack).Nodup
  visited : ∀ id, id ∈ visited ↔ id ∈ metIds listed unknown stack
  ends : ∀ id ∈ metIds listed unknown stack, id = root ∨ ∃ a, s.Leads inheritanceKinds t a id
  stored : ∀ e ∈ listed, s.node? e.node.id = some e.node
  missing : ∀ id ∈ unknown, s.node? id = none
  /-- What an entry above the greatest depth leads to has been met. -/
  closed : ∀ e ∈ listed, e.depth < maxDepth →
    ∀ b, s.Leads inheritanceKinds t e.node.id b → b ∈ metIds listed unknown stack
  hangs : ∀ before e after, listed = before ++ e :: after →
    e.step = Store.rootStep root ∨ s.Hangs t maxDepth before e.step
  stacked : ∀ q ∈ stack, q = Store.rootStep root ∨ s.Hangs t maxDepth listed q
  /-- The depths on the stack fall towards its bottom. -/
  falling : stack.Pairwise fun p q => q.depth ≤ p.depth

namespace InheritanceSearch

variable {s : Store} {t : Towards} {maxDepth : Nat} {root : NodeId}
  {listed : List InheritanceEntry} {unknown : List NodeId} {visited : ExtTreeSet NodeId}
  {stack : List InheritanceStep} {q : InheritanceStep}

theorem start (s : Store) (t : Towards) (maxDepth : Nat) (root : NodeId) :
    InheritanceSearch s t maxDepth root [] [] (ExtTreeSet.ofList [root])
      [Store.rootStep root] where
  once := List.nodup_singleton _
  visited id := by simpa [metIds, Store.rootStep] using eq_comm
  ends id hid := .inl (List.mem_singleton.1 hid)
  stored := by simp
  missing := by simp
  closed := by simp
  hangs := by simp
  stacked q hq := .inl (List.mem_singleton.1 hq)
  falling := List.pairwise_singleton _ _

theorem skip (h : InheritanceSearch s t maxDepth root listed unknown visited (q :: stack))
    (hq : s.node? q.id = none) :
    InheritanceSearch s t maxDepth root listed (unknown ++ [q.id]) visited stack := by
  have hmet : metIds listed (unknown ++ [q.id]) stack = metIds listed unknown (q :: stack) := by
    simp [metIds]
  constructor
  case once => exact hmet ▸ h.once
  case visited => exact hmet ▸ h.visited
  case ends => exact hmet ▸ h.ends
  case stored => exact h.stored
  case missing =>
    intro id hid
    rcases List.mem_append.1 hid with hid | hid
    · exact h.missing id hid
    · rwa [List.mem_singleton.1 hid]
  case closed => exact hmet ▸ h.closed
  case hangs => exact h.hangs
  case stacked => exact fun p hp => h.stacked p (List.mem_cons_of_mem _ hp)
  case falling => exact h.falling.of_cons

theorem metIds_list (listed : List InheritanceEntry) (unknown : List NodeId)
    {e : InheritanceEntry} (new stack : List InheritanceStep) (he : e.node.id = q.id) :
    (metIds (listed ++ [e]) unknown (new ++ stack)).Perm
      (metIds listed unknown (q :: stack) ++ new.map (·.id)) := by
  rw [List.perm_iff_count]
  intro id
  simp only [metIds, List.map_append, List.map_cons, List.map_nil, List.count_append,
    List.count_cons, List.count_nil, he]
  omega

theorem list (hs : s.Coherent)
    (h : InheritanceSearch s t maxDepth root listed unknown visited (q :: stack)) {node : Node}
    (hq : s.node? q.id = some node) :
    InheritanceSearch s t maxDepth root (listed ++ [⟨node, q.relationship, q.depth⟩]) unknown
      (s.takenUp t maxDepth visited q).1 (s.deeper t maxDepth visited q ++ stack) := by
  have hid : node.id = q.id := hs.node_id hq
  have hperm := metIds_list listed unknown (e := ⟨node, q.relationship, q.depth⟩)
    (s.deeper t maxDepth visited q) stack hid
  have hmem : ∀ id, id ∈ metIds (listed ++ [⟨node, q.relationship, q.depth⟩]) unknown
      (s.deeper t maxDepth visited q ++ stack) ↔ id ∈ metIds listed unknown (q :: stack) ∨
        id ∈ (s.deeper t maxDepth visited q).map (·.id) :=
    fun id => hperm.mem_iff.trans List.mem_append
  have hbelow := List.pairwise_cons.1 h.falling
  constructor
  case once =>
    refine hperm.nodup_iff.2 (h.once.append Store.nodup_deeper fun id hid hid' => ?_)
    exact ((Store.mem_deeper hs id).1 hid').2.2 ((h.visited id).2 hid)
  case visited =>
    intro id
    rw [Store.mem_takenUp_visited, hmem, h.visited]
  case ends =>
    intro id hid
    rcases (hmem id).1 hid with hid | hid
    · exact h.ends id hid
    · exact .inr ⟨q.id, ((Store.mem_deeper hs id).1 hid).2.1⟩
  case stored =>
    intro e he
    rcases List.mem_append.1 he with he | he
    · exact h.stored e he
    · obtain rfl := List.mem_singleton.1 he
      rw [hid, hq]
  case missing => exact h.missing
  case closed =>
    intro e he hmax b hb
    rw [hmem]
    rcases List.mem_append.1 he with he | he
    · exact .inl (h.closed e he hmax b hb)
    · obtain rfl := List.mem_singleton.1 he
      rw [hid] at hb
      by_cases hmet : b ∈ metIds listed unknown (q :: stack)
      · exact .inl hmet
      · exact .inr ((Store.mem_deeper hs b).2 ⟨hmax, hb, fun hvis => hmet ((h.visited b).1 hvis)⟩)
  case hangs =>
    intro before e after hsplit
    rcases List.eq_nil_or_concat' after with rfl | ⟨after, last, rfl⟩
    · obtain ⟨rfl, hlast⟩ := List.append_inj' hsplit rfl
      obtain rfl := (List.singleton_inj.1 hlast).symm
      rw [show InheritanceEntry.step ⟨node, q.relationship, q.depth⟩ = q by
        simp [InheritanceEntry.step, hid]]
      exact h.stacked q List.mem_cons_self
    · rw [← List.cons_append, ← List.append_assoc] at hsplit
      exact h.hangs before e after (List.append_inj' hsplit rfl).1
  case stacked =>
    intro p hp
    rcases List.mem_append.1 hp with hp | hp
    · obtain ⟨hdepth, hkind, hleads⟩ := Store.of_mem_deeper hs hp
      obtain ⟨hmax, -, hnew⟩ := (Store.mem_deeper hs p.id).1 (List.mem_map_of_mem hp)
      refine .inr ⟨listed, _, [], rfl, hdepth, hmax, hkind, hid ▸ hleads, ?_, by simp⟩
      exact fun e he hmax hb => hnew ((h.visited p.id).2 (h.closed e he hmax p.id hb))
    · exact (h.stacked p (List.mem_cons_of_mem _ hp)).imp_right fun hhangs =>
        hhangs.concat (hbelow.1 p hp)
  case falling =>
    have hdeeper : ∀ p ∈ s.deeper t maxDepth visited q, p.depth = q.depth + 1 :=
      fun p hp => (Store.of_mem_deeper hs hp).1
    refine List.pairwise_append.2 ⟨List.Pairwise.imp_mem.2 ?_, hbelow.2, fun p hp r hr => ?_⟩
    · exact List.pairwise_of_forall fun p r hp hr => by rw [hdeeper p hp, hdeeper r hr]
    · have := hdeeper p hp
      have := hbelow.1 r hr
      omega

theorem length_metIds_le
    (h : InheritanceSearch s t maxDepth root listed unknown visited stack) :
    (metIds listed unknown stack).length ≤ s.edgeCount + 1 :=
  Store.length_le_edgeCount_add_one inheritanceKinds t root h.once fun id hid hne =>
    (h.ends id hid).resolve_left hne

/-- A run lists what it comes to after what is listed, and leaves nothing on the stack. -/
theorem run (hs : s.Coherent) (fuel : Nat)
    (h : InheritanceSearch s t maxDepth root listed unknown visited stack)
    (hfuel : s.edgeCount + 1 < fuel + listed.length + unknown.length) :
    ∃ unknown' visited', InheritanceSearch s t maxDepth root
      (listed ++ s.inheritanceFrom t maxDepth fuel visited stack) unknown' visited' [] := by
  -- every turn takes an identifier from the stack, and they are all distinct ends of edges
  induction fuel generalizing listed unknown visited stack with
  | zero =>
    have hlen := h.length_metIds_le
    simp only [metIds, List.length_append, List.length_map] at hlen
    omega
  | succ fuel ih =>
    cases stack with
    | nil =>
      rw [Store.inheritanceFrom_nil, List.append_nil]
      exact ⟨unknown, visited, h⟩
    | cons q stack =>
      cases hq : s.node? q.id with
      | none =>
        rw [Store.inheritanceFrom_missing hq]
        refine ih (h.skip hq) ?_
        rw [List.length_append, List.length_singleton]
        omega
      | some node =>
        rw [Store.inheritanceFrom_found hq, List.append_cons]
        refine ih (h.list hs hq) ?_
        rw [List.length_append, List.length_singleton]
        omega

end InheritanceSearch

/-! ## A finished walk -/

/-- What a walk lists first: its root. -/
def rootEntry (r : Node) : InheritanceEntry := ⟨r, .inherits, 0⟩

namespace InheritanceSearch

variable {s : Store} {t : Towards} {maxDepth : Nat} {root : NodeId} {r : Node}
  {entries : List InheritanceEntry} {unknown : List NodeId} {visited : ExtTreeSet NodeId}
  (h : InheritanceSearch s t maxDepth root (rootEntry r :: entries) unknown visited [])

include h in
/-- What an entry above the greatest depth leads to is listed, if it is a declaration. -/
theorem mem_of_leads {e : InheritanceEntry} (he : e ∈ rootEntry r :: entries)
    (hmax : e.depth < maxDepth) {b : NodeId} (hb : s.hasNode b = true)
    (hleads : s.Leads inheritanceKinds t e.node.id b) :
    b ∈ (rootEntry r :: entries).map (·.node.id) := by
  have hmet := h.closed e he hmax b hleads
  rw [metIds, List.map_nil, List.append_nil] at hmet
  refine (List.mem_append.1 hmet).resolve_right fun hmissing => ?_
  obtain ⟨n, hn⟩ := Store.hasNode_iff.1 hb
  rw [h.missing b hmissing] at hn
  cases hn

include h in
theorem hasNode_of_mem {e : InheritanceEntry} (he : e ∈ rootEntry r :: entries) :
    s.hasNode e.node.id = true :=
  Store.hasNode_iff.2 ⟨e.node, h.stored e he⟩

include h in
theorem nodup_ids : ((rootEntry r :: entries).map (·.node.id)).Nodup :=
  h.once.sublist ((List.sublist_append_left _ _).trans (List.sublist_append_left _ _))

variable (hs : s.Coherent) (hr : s.node? root = some r)
include h hs hr

theorem ne_root {e : InheritanceEntry} (he : e ∈ entries) : e.node.id ≠ root := by
  rw [← hs.node_id hr]
  have hnd := h.nodup_ids
  rw [List.map_cons, List.nodup_cons] at hnd
  exact fun heq => hnd.1 (List.mem_map.2 ⟨e, he, heq⟩)

theorem hangs_entry {before after : List InheritanceEntry} {e : InheritanceEntry}
    (hsplit : entries = before ++ e :: after) :
    s.Hangs t maxDepth (rootEntry r :: before) e.step := by
  have he : e ∈ entries := by simp [hsplit]
  refine (h.hangs (rootEntry r :: before) e after (by rw [hsplit]; rfl)).resolve_left fun heq => ?_
  exact h.ne_root hs hr he (congrArg InheritanceStep.id heq)

/-- An entry hangs from the root, or from an earlier one, one level above it. -/
theorem exists_above {e : InheritanceEntry} (he : e ∈ entries) :
    ∃ p ∈ rootEntry r :: entries, e.depth = p.depth + 1 ∧ p.depth < maxDepth ∧
      s.Joins inheritanceKinds t p.node.id e.node.id := by
  obtain ⟨before, after, hsplit⟩ := List.append_of_mem he
  obtain ⟨l, p, l', hp, hdepth, hmax, hkind, hleads, -⟩ := h.hangs_entry hs hr hsplit
  have hsub : rootEntry r :: before ⊆ rootEntry r :: entries :=
    List.cons_subset_cons _ (by simp [hsplit])
  have hp : p ∈ rootEntry r :: entries := hsub (hp ▸ by simp)
  exact ⟨p, hp, hdepth, hmax, h.hasNode_of_mem hp, h.hasNode_of_mem (List.mem_cons_of_mem _ he),
    hleads.of_kind hkind⟩

theorem depth_lt {e : InheritanceEntry} (he : e ∈ rootEntry r :: entries) :
    e.depth < s.nodeCount := by
  have hdown : ∀ k, k + 1 ∈ (rootEntry r :: entries).map (·.depth) →
      k ∈ (rootEntry r :: entries).map (·.depth) := by
    intro k hk
    obtain ⟨e, he, hdepth⟩ := List.mem_map.1 hk
    rcases List.mem_cons.1 he with rfl | he
    · exact absurd hdepth (Nat.succ_ne_zero k).symm
    · obtain ⟨p, hp, habove, -⟩ := h.exists_above hs hr he
      exact List.mem_map.2 ⟨p, hp, by omega⟩
  have hlt := Store.lt_length_of_level hdown (List.mem_map_of_mem he)
  have hle := Store.length_le_nodeCount hs h.nodup_ids fun id hid => by
    obtain ⟨e, he, rfl⟩ := List.mem_map.1 hid
    exact h.hasNode_of_mem he
  rw [List.length_map] at hlt hle
  omega

end InheritanceSearch

end CodeGraph

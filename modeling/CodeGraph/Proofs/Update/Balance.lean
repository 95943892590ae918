import CodeGraph.Proofs.Update.Account
import CodeGraph.Proofs.Update.Durable
import CodeGraph.Proofs.Update.Stale

/-!
# The counts of a summary

A removal counts what it takes out, and every edge that it sets aside is among that. So an edge that
comes back can be taken off the count again, and this never goes below zero. If an output brings
identifiers that are new to the graph, the graph grows by what is counted as added.

* `SetAside`, `Project.setAside_dropFiles`: the edges that may come back.
* `Output.NewTo`, `Project.edgeCount_integrated`: an output that collides with nothing.
* `Balanced`: the size of the graph and the counts of a summary.
* `Moment.Step.aside`, `Moment.Step.balanced`: what every step keeps.
* **`Project.Consistent.counts_balance`**: the main statement.
-/

namespace CodeGraph

open Std

/-! ## Edges that are set aside -/

/-- Edges that were taken out of a store and may come back, beside how many edges were counted as
removed. -/
structure SetAside (s : Store) (removed : Nat) (orphaned : List Edge) : Prop where
  once : (orphaned.map Edge.id).Nodup
  gone : ∀ e ∈ orphaned, s.edge? e.id = none
  counted : orphaned.length ≤ removed

namespace Project

section DropFiles

variable {p : Project} (h : p.store.Coherent)
include h

theorem nodup_orphaned_dropFile (path : Path) :
    ((p.dropFile path).2.orphaned.map Edge.id).Nodup := by
  have hcoherent := (h.removeNodesByFile path).removeEdgesByFile path
  have hid : ∀ {i} {e : Edge}, (takenFor p.store path).2.1[i]? = some e → e.id = i := by
    intro i e he
    rcases ((@foldl_takeTouching (_, ∅, 0) hcoherent _).2 (by simp) i e).1 he with ⟨he, -⟩ | he
    · exact hcoherent.edge_id he
    · simp at he
  change ((takenFor p.store path).2.1.values.map Edge.id).Nodup
  rw [map_values_eq_keys hid]
  exact ExtTreeMap.nodup_keys

theorem nodup_orphaned_dropFiles (paths : List Path) :
    ((p.dropFiles paths).2.2.map Edge.id).Nodup := by
  induction paths generalizing p with
  | nil => exact List.nodup_nil
  | cons path paths ih =>
    have hd := dropped_dropFile h path
    rw [dropFiles, List.map_append]
    refine (nodup_orphaned_dropFile h path).append (ih hd.coherent) fun i hi hlater => ?_
    obtain ⟨e, he, rfl⟩ := List.mem_map.1 hi
    obtain ⟨e', he', hid⟩ := List.mem_map.1 hlater
    obtain ⟨hstored, -, htouches⟩ := hd.mem_orphaned.1 he
    -- What the later files set aside was still there when the first one was gone.
    obtain ⟨hstored', -, hfree⟩ := hd.edge?.1 ((mem_orphaned_dropFiles hd.coherent).1 he').1
    rw [hid, hstored] at hstored'
    obtain rfl := Option.some.inj hstored'
    exact hfree htouches

theorem edge?_of_orphaned {paths : List Path} {e : Edge} (he : e ∈ (p.dropFiles paths).2.2) :
    (p.dropFiles paths).1.store.edge? e.id = none := by
  obtain ⟨hstored, pre, f, post, rfl, -, -, hmeets⟩ := (mem_orphaned_dropFiles h).1 he
  refine Option.eq_none_iff_forall_ne_some.2 fun e' he' => ?_
  obtain ⟨hstored', hspares⟩ := (edge?_dropFiles h).1 he'
  rw [hstored] at hstored'
  obtain rfl := Option.some.inj hstored'
  exact (hspares f (List.mem_append_right _ List.mem_cons_self)).2 hmeets

theorem length_orphaned_dropFiles (paths : List Path) :
    (p.dropFiles paths).2.2.length + (p.dropFiles paths).1.store.edgeCount ≤ p.store.edgeCount := by
  have hdisjoint : List.Disjoint ((p.dropFiles paths).2.2.map Edge.id)
      (p.dropFiles paths).1.store.edges.keys := by
    intro i hi hkey
    obtain ⟨e, he, rfl⟩ := List.mem_map.1 hi
    have hnone := edge?_of_orphaned h he
    rw [ExtTreeMap.mem_keys, ExtTreeMap.mem_iff_isSome_getElem?] at hkey
    rw [Store.edge?] at hnone
    simp [hnone] at hkey
  have hsubset : (p.dropFiles paths).2.2.map Edge.id ++
      (p.dropFiles paths).1.store.edges.keys ⊆ p.store.edges.keys := by
    intro i hi
    rw [ExtTreeMap.mem_keys]
    rcases List.mem_append.1 hi with hi | hi
    · obtain ⟨e, he, rfl⟩ := List.mem_map.1 hi
      exact Store.mem_edges ((mem_orphaned_dropFiles h).1 he).1
    · rw [ExtTreeMap.mem_keys, ExtTreeMap.mem_iff_isSome_getElem?, Option.isSome_iff_exists] at hi
      obtain ⟨e, he⟩ := hi
      exact Store.mem_edges ((edge?_dropFiles h).1 he).1
  have hnodup := (nodup_orphaned_dropFiles h paths).append ExtTreeMap.nodup_keys hdisjoint
  have hle := (List.subperm_of_subset hnodup hsubset).length_le
  rwa [List.length_append, List.length_map, ExtTreeMap.length_keys, ExtTreeMap.length_keys] at hle

end DropFiles

/-! ## What a removal counts -/

/-- A summary has counted what was taken out of a store since another one. -/
structure CountsRemoval (s : Store) (c : Summary) (s' : Store) (c' : Summary) : Prop where
  nodes : s'.nodeCount + c'.nodesRemoved = s.nodeCount + c.nodesRemoved
  edges : s'.edgeCount + c'.edgesRemoved = s.edgeCount + c.edgesRemoved
  nodesAdded : c'.nodesAdded = c.nodesAdded
  edgesAdded : c'.edgesAdded = c.edgesAdded

theorem removeFile_counts {p : Project} (h : p.store.Coherent) (w : World) (c : Summary)
    (path : Path) :
    CountsRemoval p.store c (p.removeFile w c path).1.store (p.removeFile w c path).2.1 ∧
      (p.removeFile w c path).1.store.Coherent := by
  have hcounts : (p.removeFile w c path).2.1 = c.afterRemoval (p.dropFile path).2 := by
    unfold removeFile
    dsimp only
    rcases forgetFile w (p.dropFile path).1 path with ⟨q, e | _⟩ <;> rfl
  have hstore : (p.removeFile w c path).1.store = (p.dropFile path).1.store :=
    removeFile_apart (g := store) (fun _ _ _ _ => rfl) w p c path
  have hnodes := nodeCount_dropFile h path
  have hedges := p.edgeCount_dropFile path
  rw [hcounts, hstore]
  refine ⟨⟨?_, ?_, rfl, rfl⟩, (dropped_dropFile h path).coherent⟩
  · simp only [Summary.afterRemoval]
    omega
  · simp only [Summary.afterRemoval]
    omega

theorem removeStale_counts {p : Project} (h : p.store.Coherent) (w : World) (paths : List Path)
    (c : Summary) :
    CountsRemoval p.store c (Batch.removeStale w paths p c).1.store
      (Batch.removeStale w paths p c).2.1 := by
  induction paths generalizing p c with
  | nil => exact ⟨rfl, rfl, rfl, rfl⟩
  | cons path paths ih =>
    obtain ⟨hfile, hcoherent⟩ := removeFile_counts h w c path
    rw [Batch.removeStale]
    rcases hr : p.removeFile w c path with ⟨q, c', e | removal⟩
    · rwa [hr] at hfile
    · rw [hr] at hfile hcoherent
      have hrest := ih hcoherent c'
      have hboth : CountsRemoval p.store c (Batch.removeStale w paths q c').1.store
          (Batch.removeStale w paths q c').2.1 :=
        ⟨hrest.nodes.trans hfile.nodes, hrest.edges.trans hfile.edges,
          hrest.nodesAdded.trans hfile.nodesAdded, hrest.edgesAdded.trans hfile.edgesAdded⟩
      dsimp only
      rcases hstale : Batch.removeStale w paths q c' with ⟨q', c'', e | found⟩
      · rwa [hstale] at hboth
      · rwa [hstale] at hboth

theorem setAside_removeStale {w : World} {paths : List Path} {p q : Project}
    (h : p.store.Coherent) {c c' : Summary} {seed : List NodeId} {orphaned : List Edge}
    (hstale : Batch.removeStale w paths p c = (q, c', .ok (seed, orphaned))) :
    SetAside q.store c'.edgesRemoved orphaned := by
  obtain ⟨hkeeps, hfound⟩ := Batch.removeStale_eq_ok hstale
  have horphaned : orphaned = (p.dropFiles paths).2.2 := congrArg Prod.snd hfound
  have hcounts := (removeStale_counts h w paths c).edges
  have hlength := length_orphaned_dropFiles h paths
  rw [hstale] at hcounts
  rw [← hkeeps.store] at hlength
  rw [hkeeps.store, horphaned]
  refine ⟨nodup_orphaned_dropFiles h paths, fun e he => edge?_of_orphaned h he, ?_⟩
  dsimp only at hcounts
  omega

end Project

/-! ## What an analysis adds -/

/-- An output that collides with nothing: no identifier comes twice, none is in the store, and no
edge was set aside under the identifier of another. -/
structure Output.NewTo (output : Output) (s : Store) (orphaned : List Edge) : Prop where
  nodesOnce : (output.nodes.map Node.id).Nodup
  nodesNew : ∀ n ∈ output.nodes, s.node? n.id = none
  edgesOnce : (output.edges.map Edge.id).Nodup
  edgesNew : ∀ e ∈ output.edges, s.edge? e.id = none ∧ e.id ∉ orphaned.map Edge.id

instance (output : Output) (s : Store) (orphaned : List Edge) :
    Decidable (output.NewTo s orphaned) :=
  decidable_of_iff
    (((output.nodes.map Node.id).Nodup ∧ ∀ n ∈ output.nodes, s.node? n.id = none) ∧
      (output.edges.map Edge.id).Nodup ∧
      ∀ e ∈ output.edges, s.edge? e.id = none ∧ e.id ∉ orphaned.map Edge.id)
    ⟨fun ⟨⟨honce, hnew⟩, honce', hnew'⟩ => ⟨honce, hnew, honce', hnew'⟩,
      fun h => ⟨⟨h.nodesOnce, h.nodesNew⟩, h.edgesOnce, h.edgesNew⟩⟩

namespace Store

theorem size_foldl_insert {β : Type} {id : β → String} {bs : List β} {m : ExtTreeMap String β}
    (hd : (bs.map id).Nodup) (hnew : ∀ b ∈ bs, m[id b]? = none) :
    (bs.foldl (fun m b => m.insert (id b) b) m).size = m.size + bs.length := by
  induction bs generalizing m with
  | nil => rfl
  | cons b bs ih =>
    rw [List.map_cons, List.nodup_cons] at hd
    have hrest : ∀ b' ∈ bs, (m.insert (id b) b)[id b']? = none := by
      intro b' hb'
      have hne : id b ≠ id b' := fun he => hd.1 (he ▸ List.mem_map_of_mem hb')
      simp [ExtTreeMap.getElem?_insert, hne, hnew b' (List.mem_cons_of_mem b hb')]
    have habsent : m.contains (id b) = false := by
      rw [ExtTreeMap.contains_eq_isSome_getElem?, hnew b List.mem_cons_self]
      rfl
    rw [List.foldl_cons, ih hd.2 hrest, ExtTreeMap.size_insert, habsent, List.length_cons]
    simp only [Bool.false_eq_true, if_false]
    omega

theorem nodes_addNodes (s : Store) (ns : List Node) :
    (s.addNodes ns).nodes = ns.foldl (fun m n => m.insert n.id n) s.nodes := by
  induction ns generalizing s with
  | nil => rfl
  | cons n ns ih => exact ih (s.addNode n)

theorem edges_addNodes (s : Store) (ns : List Node) : (s.addNodes ns).edges = s.edges := by
  induction ns generalizing s with
  | nil => rfl
  | cons n ns ih => exact ih (s.addNode n)

theorem edges_addEdges (s : Store) (es : List Edge) :
    (s.addEdges es).edges = es.foldl (fun m e => m.insert e.id e) s.edges := by
  induction es generalizing s with
  | nil => rfl
  | cons e es ih =>
    rw [List.foldl_cons, ← edges_addEdge]
    exact ih (s.addEdge e)

end Store

namespace Project

variable {s : Store} {path : Path} {output : Output} {orphaned : List Edge}

theorem nodeCount_integrated (hnew : output.NewTo s orphaned) :
    (integrated s path output orphaned).nodeCount = s.nodeCount + output.nodes.length := by
  rw [Store.nodeCount, nodes_integrated, Store.nodes_addNodes]
  exact Store.size_foldl_insert hnew.nodesOnce hnew.nodesNew

theorem edgeCount_integrated (hnew : output.NewTo s orphaned) {removed : Nat}
    (haside : SetAside s removed orphaned) :
    (integrated s path output orphaned).edgeCount =
      s.edgeCount + output.edges.length + (restored s path output orphaned).length := by
  have hsublist : (restored s path output orphaned).Sublist orphaned := List.filter_sublist
  have hids : (output.edges.map (ownEdge path)).map Edge.id = output.edges.map Edge.id := by
    rw [List.map_map]
    exact List.map_congr_left fun e _ => ownEdge_id path e
  have honce : ((output.edges.map (ownEdge path) ++ restored s path output orphaned).map
      Edge.id).Nodup := by
    rw [List.map_append, hids]
    refine hnew.edgesOnce.append ((hsublist.map _).nodup haside.once) fun i hi hback => ?_
    obtain ⟨e, he, rfl⟩ := List.mem_map.1 hi
    exact (hnew.edgesNew e he).2 ((hsublist.map _).subset hback)
  have habsent : ∀ e ∈ output.edges.map (ownEdge path) ++ restored s path output orphaned,
      (s.addNodes output.nodes).edges[e.id]? = none := by
    intro e he
    rw [Store.edges_addNodes]
    rcases List.mem_append.1 he with he | he
    · obtain ⟨found, hfound, rfl⟩ := List.mem_map.1 he
      rw [ownEdge_id]
      exact (hnew.edgesNew found hfound).1
    · exact haside.gone e (hsublist.subset he)
  rw [integrated_eq, Store.edgeCount, Store.edges_addEdges,
    Store.size_foldl_insert honce habsent, Store.edges_addNodes, List.length_append,
    List.length_map, ← Nat.add_assoc]
  rfl

end Project

/-- The counts after an output was taken in and some edges came back. -/
def Summary.afterOutput (c : Summary) (output : Output) (back : List Edge) : Summary :=
  { c with
    nodesAdded := c.nodesAdded + output.nodes.length
    edgesAdded := c.edgesAdded + output.edges.length
    edgesRemoved := c.edgesRemoved - back.length }

namespace Project

variable (w : World) (p : Project) (c : Summary)

theorem integrate_counts (path : Path) (output : Output) (orphaned : List Edge) :
    (p.integrate w c path output orphaned).1.store = integrated p.store path output orphaned ∧
      (p.integrate w c path output orphaned).2.1 =
        c.afterOutput output (restored p.store path output orphaned) := by
  refine ⟨integrate_apart (g := store) (fun _ _ _ _ => rfl) w p c path output orphaned, ?_⟩
  unfold integrate Summary.afterOutput
  dsimp only
  rw [List.length_map]
  rcases saveOutput w _ _ _ with ⟨q, e | _⟩ <;> rfl

/-- An answer leaves the live graph and the counts alone, or brings an output. -/
theorem respond_counts (f : InFlight) (reply : Reply) :
    ((p.respond w c f reply).1.store = p.store ∧ (p.respond w c f reply).2.1 = c ∧
        ∀ output, reply.outcome ≠ .ok output) ∨
      ∃ output, reply.outcome = .ok output ∧
        (p.respond w c f reply).1.store =
          integrated p.store f.change.path output f.orphaned ∧
        (p.respond w c f reply).2.1 =
          c.afterOutput output (restored p.store f.change.path output f.orphaned) := by
  have hcancel : (if reply.cancels then p.cancel else p).store = p.store := by
    split <;> rfl
  unfold respond
  dsimp only
  rw [← hcancel]
  generalize (if reply.cancels then p.cancel else p) = q
  cases reply.outcome with
  | error cause => exact .inl ⟨rfl, rfl, fun output => by simp⟩
  | ok output =>
    have hcounts := q.integrate_counts w c f.change.path output f.orphaned
    refine .inr ⟨output, rfl, ?_⟩
    dsimp only
    rcases hi : q.integrate w c f.change.path output f.orphaned with ⟨q', c', e | _⟩
    · rwa [hi] at hcounts
    · rwa [hi] at hcounts

end Project

/-- An output takes the edges that come back off the count of removed edges. -/
theorem Batch.edgesRemoved_answer {w : World} {b : Batch} {p : Project} {f : InFlight}
    {reply : Reply} {output : Output} (hok : reply.outcome = .ok output) :
    (b.answer w p f reply).2.summary.edgesRemoved = b.summary.edgesRemoved -
      (Project.restored p.store f.change.path output f.orphaned).length := by
  have hcounts := p.respond_counts w b.summary f reply
  rcases hcounts with ⟨-, -, hnone⟩ | ⟨output', hok', -, hcounts⟩
  · exact absurd hok (hnone output)
  · obtain rfl : output = output' := Except.ok.inj (hok.symm.trans hok')
    rw [answer_eq_respond]
    rcases hr : p.respond w b.summary f reply with ⟨q, c, e | h⟩
    · rw [hr] at hcounts
      exact congrArg Summary.edgesRemoved hcounts
    · rw [hr] at hcounts
      dsimp only
      rw [summary_succeed]
      exact congrArg Summary.edgesRemoved hcounts

/-! ## What a batch conserves -/

/-- The size of a store belongs to the counts of a summary, if the batch began with `first`. -/
structure Balanced (first s : Store) (c : Summary) : Prop where
  nodes : first.nodeCount + c.nodesAdded = s.nodeCount + c.nodesRemoved
  edges : first.edgeCount + c.edgesAdded = s.edgeCount + c.edgesRemoved

namespace Balanced

variable {first s s' : Store} {c c' : Summary} (h : Balanced first s c)
include h

theorem remove (hr : Project.CountsRemoval s c s' c') : Balanced first s' c' where
  nodes := by rw [hr.nodesAdded, h.nodes, hr.nodes]
  edges := by rw [hr.edgesAdded, h.edges, hr.edges]

theorem integrate {path : Path} {output : Output} {orphaned : List Edge}
    (hnew : output.NewTo s orphaned) (haside : SetAside s c.edgesRemoved orphaned) :
    Balanced first (Project.integrated s path output orphaned)
      (c.afterOutput output (Project.restored s path output orphaned)) := by
  have hnodes := h.nodes
  have hedges := h.edges
  have hback : (Project.restored s path output orphaned).length ≤ c.edgesRemoved :=
    (List.length_filter_le _ _).trans haside.counted
  constructor
  · rw [Project.nodeCount_integrated hnew]
    simp only [Summary.afterOutput]
    omega
  · rw [Project.edgeCount_integrated hnew haside]
    simp only [Summary.afterOutput]
    omega

end Balanced

namespace Moment

/-- The edges that were set aside for the analysis under way. -/
def Aside (m : Moment) : Prop :=
  ∀ f reply, m.awaited = some (f, reply) →
    SetAside m.project.store m.batch.summary.edgesRemoved f.orphaned

/-- The output that is about to be taken in collides with nothing. -/
def Novel (m : Moment) : Prop :=
  ∀ f reply output, m.awaited = some (f, reply) → reply.outcome = .ok output →
    output.NewTo m.project.store f.orphaned

/-- What leads from one moment to a later one, if no output collides with anything. -/
abbrev NovelSteps (w : World) : Moment → Moment → Prop :=
  Relation.ReflTransGen fun m m' => Step w m m' ∧ m.Novel

variable {w : World} {m m' : Moment}

theorem Step.aside (hs : Step w m m') (hm : m.project.Consistent) (h : m.Aside) : m'.Aside := by
  have hnone : ∀ {p b}, Aside ⟨p, b, none⟩ := fun f reply hawaited => by cases hawaited
  cases hs.effect with
  | drained => exact hnone
  | stopped => exact hnone
  | passed => exact hnone
  | refused => exact hnone
  | gone => exact hnone
  | @asked p b c cascaded rest q s seed orphaned _ _ _ hstale _ =>
    intro f reply hawaited
    obtain ⟨rfl, -⟩ := Prod.mk.inj (Option.some.inj hawaited)
    exact Project.setAside_removeStale (q := q) hm.coherent hstale
  | failed => exact hnone
  | answered => exact hnone
  | cancelled => exact h

theorem Steps.aside (hs : Steps w m m') (hm : m.project.Consistent) (h : m.Aside) :
    m'.Aside := by
  induction hs with
  | refl => exact h
  | tail hsteps hs ih => exact hs.aside (Steps.consistent hsteps hm) ih

theorem NovelSteps.steps (hs : NovelSteps w m m') : Steps w m m' :=
  Relation.ReflTransGen.mono (fun _ _ h => h.1) _ _ hs

theorem balanced_respond {first : Store} {p q : Project} {b : Batch} {f : InFlight} {reply : Reply}
    {c : Summary} {r : Except Error Handling} (hnovel : Novel ⟨p, b, some (f, reply)⟩)
    (haside : Aside ⟨p, b, some (f, reply)⟩) (h : Balanced first p.store b.summary)
    (hrespond : p.respond w b.summary f reply = (q, c, r)) : Balanced first q.store c := by
  have hcounts := p.respond_counts w b.summary f reply
  rw [hrespond] at hcounts
  rcases hcounts with ⟨hstore, hsame, -⟩ | ⟨output, hok, hstore, hadded⟩
  · dsimp only at hstore hsame
    rwa [hstore, hsame]
  · dsimp only at hstore hadded
    rw [hstore, hadded]
    exact h.integrate (hnovel f reply output rfl hok) (haside f reply rfl)

/-- **Every step keeps the balance.** -/
theorem Step.balanced {first : Store} (hs : Step w m m') (hm : m.project.Consistent)
    (haside : m.Aside) (hnovel : m.Novel)
    (h : Balanced first m.project.store m.batch.summary) :
    Balanced first m'.project.store m'.batch.summary := by
  have hstale : ∀ {p q : Project} {c c' : Summary} {paths r}, p.store.Coherent →
      Balanced first p.store c → Batch.removeStale w paths p c = (q, c', r) →
      Balanced first q.store c' := by
    intro p q c c' paths r hp hbalanced hstale
    have hcounts := Project.removeStale_counts hp w paths c
    rw [hstale] at hcounts
    exact hbalanced.remove hcounts
  cases hs.effect with
  | drained => exact h
  | stopped => exact ⟨h.nodes, h.edges⟩
  | passed => exact h
  | refused _ _ _ hremoved =>
    have hq := hstale hm.coherent h hremoved
    exact ⟨hq.nodes, hq.edges⟩
  | gone _ _ _ hremoved _ =>
    have hq := hstale hm.coherent h hremoved
    dsimp only
    rw [Batch.summary_succeed]
    exact ⟨hq.nodes, hq.edges⟩
  | @asked p b c cascaded rest q s seed orphaned _ _ _ hremoved _ =>
    exact hstale (q := q) hm.coherent h hremoved
  | failed hrespond =>
    have hq := balanced_respond hnovel haside h hrespond
    exact ⟨hq.nodes, hq.edges⟩
  | answered hrespond =>
    have hq := balanced_respond hnovel haside h hrespond
    dsimp only
    rw [Batch.summary_succeed]
    exact ⟨hq.nodes, hq.edges⟩
  | cancelled => exact h

theorem NovelSteps.balanced {first : Store} (hs : NovelSteps w m m') (hm : m.project.Consistent)
    (haside : m.Aside) (h : Balanced first m.project.store m.batch.summary) :
    Balanced first m'.project.store m'.batch.summary := by
  induction hs with
  | refl => exact h
  | tail hsteps hs ih =>
    have hbefore := NovelSteps.steps hsteps
    exact hs.1.balanced (Steps.consistent hbefore hm) (Steps.aside hbefore hm haside) hs.2 ih

end Moment

/-! ## The main statement -/

theorem Balanced.finish {first : Store} {p : Project} {b : Batch}
    (h : Balanced first p.store b.summary) (w : World) :
    Balanced first (p.finish w b).1.store (p.finish w b).2 := by
  rw [(Project.keeps_finish w p b).store, (Project.finish_eq w p b).1]
  cases hflush : (p.closingFlush w).2 with
  | ok =>
    rw [(Project.flushBatch_of_ok b.summary hflush).1]
    exact h
  | error cause =>
    rw [(Project.flushBatch_of_error b.summary hflush).1]
    exact ⟨h.nodes, h.edges⟩

/-- **The counts of a summary balance**, whatever the collaborators do and whenever the batch is
stopped or left. The edges that come back with an output were all counted as removed, so taking them
off the count takes off each of them. If no output collides with anything, what was there before and
what was added is what is there now and what was removed. -/
theorem Project.Consistent.counts_balance {p : Project} (hp : p.Consistent) (w : World)
    (task : Assignment) :
    (∀ m f reply output, Moment.Steps w (task.first p) m → m.awaited = some (f, reply) →
      reply.outcome = .ok output →
      (m.batch.answer w m.project f reply).2.summary.edgesRemoved +
          (restored m.project.store f.change.path output f.orphaned).length =
        m.batch.summary.edgesRemoved) ∧
    ∀ m, Moment.NovelSteps w (task.first p) m →
      let last := (m.project.finish w m.batch).1
      let summary := (m.project.finish w m.batch).2
      p.store.nodeCount + summary.nodesAdded = last.store.nodeCount + summary.nodesRemoved ∧
      p.store.edgeCount + summary.edgesAdded = last.store.edgeCount + summary.edgesRemoved := by
  have hfirst : (task.first p).project.Consistent := hp.congr rfl rfl
  have hnone : (task.first p).Aside := fun f reply hawaited => by cases hawaited
  refine ⟨fun m f reply output hsteps hawaited hok => ?_, fun m hsteps => ?_⟩
  · have haside := Moment.Steps.aside hsteps hfirst hnone f reply hawaited
    rw [Batch.edgesRemoved_answer hok]
    exact Nat.sub_add_cancel ((List.length_filter_le _ _).trans haside.counted)
  · have hbalanced := (hsteps.balanced hfirst hnone ⟨rfl, rfl⟩).finish w
    exact ⟨hbalanced.nodes, hbalanced.edges⟩

/-- One file with both declarations, in which the call goes the other way. -/
def callerTurned : Contents Output := fun f =>
  if f = ⟨"b.cs"⟩ then some
    { nodes := [.ofFileAt ⟨"a.cs"⟩ ⟨"b.cs"⟩, .ofFile ⟨"b.cs"⟩]
      edges := [.ofCall ⟨"a.cs"⟩ ⟨"b.cs"⟩] }
  else none

/-- The analyzer finds both declarations in `b.cs`, and the call turned. -/
def World.turns : World := Reader.verbatim.world callerTurned

/-- The moment at which it is asked about `b.cs`, when `a.cs` is moved over it. -/
def Moment.turning : Moment :=
  let first := (Assignment.process [.renamed ⟨"a.cs"⟩ ⟨"b.cs"⟩] false).first Project.callerIndexed
  afterNext World.turns (first.batch.next World.turns first.project)

/-- The call of `b.cs` to `a.cs` goes with the place that `a.cs` was moved from, and comes back; the
other call is new. -/
theorem Project.Consistent.counts_balance_turned :
    Project.callerIndexed.Consistent ∧ Moment.turning.batch.summary.edgesRemoved = 1 ∧
    ∃ f reply output, Moment.turning.awaited = some (f, reply) ∧ reply.outcome = .ok output ∧
      let (q, b) := Moment.turning.batch.answer World.turns Moment.turning.project f reply
      b.summary.edgesRemoved +
        (restored Moment.turning.project.store f.change.path output f.orphaned).length = 1 ∧
      Moment.NovelSteps World.turns ((Assignment.process [.renamed ⟨"a.cs"⟩ ⟨"b.cs"⟩] false).first
        Project.callerIndexed) ⟨q, b, none⟩ ∧
      Project.callerIndexed.store.edgeCount + (q.finish World.turns b).2.edgesAdded =
        (q.finish World.turns b).1.store.edgeCount + (q.finish World.turns b).2.edgesRemoved := by
  have hp := Regime.Live.callerIndexed.consistent
  have hbalance := hp.counts_balance World.turns (.process [.renamed ⟨"a.cs"⟩ ⟨"b.cs"⟩] false)
  have hasked : Moment.NovelSteps World.turns ((Assignment.process
      [.renamed ⟨"a.cs"⟩ ⟨"b.cs"⟩] false).first Project.callerIndexed) Moment.turning :=
    .single ⟨Moment.step_afterNext _ _ _, fun f reply output hawaited => by cases hawaited⟩
  have hremoved : Moment.turning.batch.summary.edgesRemoved = 1 := by decide +kernel
  have hnovel : ∀ a ∈ Moment.turning.awaited, ∀ output ∈ a.2.outcome.toOption,
      output.NewTo Moment.turning.project.store a.1.orphaned := by decide +kernel
  have hanswers : ∀ a ∈ Moment.turning.awaited, a.2.outcome.toOption.isSome := by decide +kernel
  obtain ⟨⟨f, reply⟩, hawaited⟩ := Option.isSome_iff_exists.1
    (by decide +kernel : Moment.turning.awaited.isSome)
  obtain ⟨output, hok⟩ : ∃ output, reply.outcome = .ok output := by
    have hsome := hanswers (f, reply) hawaited
    cases houtcome : reply.outcome with
    | error cause => simp [houtcome, Except.toOption] at hsome
    | ok output => exact ⟨output, rfl⟩
  have hback := hbalance.1 Moment.turning f reply output (Moment.NovelSteps.steps hasked) hawaited
    hok
  have hstep := @Moment.Step.answered World.turns Moment.turning.project Moment.turning.batch f
    reply
  rw [← hawaited] at hstep
  have hanswered := hasked.tail ⟨hstep, fun f' reply' output' hawaited' hok' =>
    hnovel _ hawaited' output' (by rw [hok']; rfl)⟩
  exact ⟨hp, hremoved, f, reply, output, hawaited, hok, hback.trans hremoved, hanswered,
    (hbalance.2 _ hanswered).2⟩

end CodeGraph

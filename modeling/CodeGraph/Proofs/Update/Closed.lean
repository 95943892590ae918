import CodeGraph.Proofs.Update.Moment

/-!
# The live graph has no dangling edges

If every edge that the analyzer finds ends at declarations that it found with the edge or was told
about, both ends of every edge are in the live graph at any time: between batches and in the middle
of one, whatever fails and whenever a batch is asked to stop.

* `World.Grounded`: the analyzer names no declaration that is unknown to it.
* `Store.Sound`: the indices describe the graph, and no edge dangles.
* **`Regime.Live.both_ends_stored`**: the main statement.
-/

namespace CodeGraph

/-! ## Analyzers and graphs without dangling edges -/

/-- An output whose edges end at its own declarations or at known ones. -/
def Output.Grounded (known : NodeId → Prop) (o : Output) : Prop :=
  ∀ e ∈ o.edges, (e.source ∈ o.nodes.map Node.id ∨ known e.source) ∧
    (e.target ∈ o.nodes.map Node.id ∨ known e.target)

/-- An analyzer whose outputs end at their own declarations or at those of the request. -/
def World.Grounded (w : World) : Prop :=
  ∀ n r o, (w.analyze n r).outcome = .ok o → o.Grounded (· ∈ r.ids)

/-- A graph whose edges have both ends in it. -/
def Snapshot.Closed (g : Snapshot) : Prop :=
  ∀ e ∈ g.edges, e.source ∈ g.nodes.map Node.id ∧ e.target ∈ g.nodes.map Node.id

/-- A project that has taken over a graph whose edges have both ends in it. -/
def Project.HydratedClosed (p : Project) : Prop :=
  ∃ w q, Project.hydrate w q = (p, .ok ()) ∧ p.repository.graph.Closed

/-! ## What the steps keep -/

/-- The indices describe the graph, and no edge dangles. -/
structure Store.Sound (s : Store) : Prop where
  coherent : s.Coherent
  closed : s.Closed

namespace Store

theorem sound_empty : empty.Sound := ⟨coherent_empty, fun i e he => by simp [empty, edge?] at he⟩

theorem hasNode_ofSnapshot {g : Snapshot} {i : NodeId} :
    (ofSnapshot g).hasNode i = true ↔ i ∈ g.nodes.map Node.id := by
  have hnodes : (ofSnapshot g).node? i = (g.nodes.reverse.find? (·.id == i)) := by
    rw [node?, ofSnapshot, nodes_addEdges]
    exact (empty.node?_addNodes g.nodes i).trans (by simp [empty, node?])
  rw [hasNode_iff, hnodes, List.mem_map]
  constructor
  · rintro ⟨n, hn⟩
    exact ⟨n, List.mem_reverse.1 (List.mem_of_find?_eq_some hn), by simpa using List.find?_some hn⟩
  · rintro ⟨n, hn, hi⟩
    cases hf : g.nodes.reverse.find? (fun n => n.id == i) with
    | some n' => exact ⟨n', rfl⟩
    | none => exact absurd hi (find?_reverse_eq_none.1 hf n hn)

theorem sound_ofSnapshot {g : Snapshot} (h : g.Closed) : (ofSnapshot g).Sound := by
  refine ⟨coherent_ofSnapshot g, fun i e he => ?_⟩
  rw [ofSnapshot, edge?_addEdges, edge?_addNodes, Option.or_eq_some_iff] at he
  rcases he with he | ⟨-, he⟩
  · rw [hasNode_ofSnapshot, hasNode_ofSnapshot]
    exact h e (List.mem_reverse.1 (List.mem_of_find?_eq_some he))
  · simp [empty, edge?] at he

/-- Removing a file takes the edges that touch its declarations along. -/
theorem Sound.dropFile {p : Project} (h : p.store.Sound) (path : Path) :
    (p.dropFile path).1.store.Sound :=
  have hdropped := Project.dropped_dropFile h.coherent path
  ⟨hdropped.coherent, hdropped.closed h.closed⟩

end Store

/-- The graph is sound, and the answer that is awaited fits it. -/
structure Moment.Sound (m : Moment) : Prop where
  store : m.project.store.Sound
  awaited : ∀ f reply, m.awaited = some (f, reply) → ∀ o, reply.outcome = .ok o →
    o.Grounded (m.project.store.hasNode · = true)

namespace Moment

theorem sound_idle {p : Project} {b : Batch} (h : p.store.Sound) : Sound ⟨p, b, none⟩ :=
  ⟨h, fun _ _ hf => by simp at hf⟩

/-- The analyzer is told about the declarations in the graph, so its answer fits the graph. -/
theorem sound_asked {w : World} (hw : w.Grounded) {p : Project} {b : Batch} (f : InFlight)
    (h : p.store.Sound) : Sound ⟨(Batch.ask w p f).1, b, some (f, (Batch.ask w p f).2.2)⟩ := by
  refine ⟨h, fun f' reply hf o ho => ?_⟩
  obtain ⟨rfl, rfl⟩ := Prod.mk.inj (Option.some.inj hf)
  have hgrounded := hw _ _ o ho
  simp only [Project.requestFor, Store.mem_map_id_allNodes h.coherent] at hgrounded
  exact hgrounded

theorem sound_answered {w : World} {p : Project} {b : Batch} {f : InFlight} {reply : Reply}
    (h : Sound ⟨p, b, some (f, reply)⟩) :
    Sound ⟨(b.answer w p f reply).1, (b.answer w p f reply).2, none⟩ := by
  apply sound_idle
  rcases b.answer_cases w p f reply with hstore | ⟨output, houtcome, hstore⟩
  · rw [hstore]
    exact h.store
  · rw [hstore]
    exact ⟨Project.coherent_integrated h.store.coherent _ _ _,
      Project.closed_integrated h.store.closed _ _ _ (h.awaited f reply rfl output houtcome)⟩

theorem Sound.step {w : World} (hw : w.Grounded) {m m' : Moment} (hs : Step w m m')
    (h : m.Sound) : m'.Sound := by
  have hnext : ∀ {p p' : Project} {b b' : Batch} {progress : Progress},
      b.next w p = (p', b', progress) → p.store.Sound → p'.store.Sound := by
    intro p p' b b' progress hn hp
    have hdrop := b.store_next (fun _ path hp => hp.dropFile path) w p hp
    rwa [hn] at hdrop
  cases hs with
  | finished hn => exact sound_idle (hnext hn h.store)
  | handled hn => exact sound_idle (hnext hn h.store)
  | asked hn => exact sound_asked hw _ (hnext hn h.store)
  | answered => exact sound_answered h
  | cancelled => exact ⟨h.store, h.awaited⟩

end Moment

/-! ## The main statement -/

/-- The course of a project with a grounded analyzer, from nothing or from a stored graph without
dangling edges; any assignment may come and the repository may refuse any call. -/
def Regime.grounded : Regime where
  starts p := p.Fresh ∨ p.HydratedClosed
  world w := w.Grounded

theorem Project.sound_hydrated {p : Project} (h : p.HydratedClosed) : p.store.Sound := by
  obtain ⟨w, q, hq, hclosed⟩ := h
  unfold hydrate at hq
  split at hq
  · simp at hq
  · split at hq
    · simp at hq
    · obtain rfl := (Prod.mk.inj hq).1
      exact Store.sound_ofSnapshot hclosed

/-- **No edge of the live graph dangles.** -/
theorem Regime.Live.both_ends_stored {p : Project} (h : Regime.grounded.Live p) :
    ∀ e ∈ p.store.allEdges, p.store.hasNode e.source = true ∧ p.store.hasNode e.target = true := by
  have hsound : p.store.Sound := by
    refine h.invariant (I := fun p => p.store.Sound) (J := Moment.Sound) ?_ ?_ ?_ ?_ ?_
    · rintro p (⟨hstore, -, -⟩ | hp)
      · exact hstore ▸ Store.sound_empty
      · exact Project.sound_hydrated hp
    · exact fun p task _ hp => Moment.sound_idle hp
    · exact fun w m m' hw hs hm => hm.step hw hs
    · exact fun m hm => hm.store
    · exact fun w m hm => (Project.keeps_finish w m.project m.batch).store ▸ hm.store
  intro e he
  exact hsound.closed e.id e ((Store.mem_allEdges hsound.coherent).1 he)

/-- An analyzer that finds every file to call `a.cs`, if that is known, and a repository that
refuses to store edges. -/
def callsA : World where
  analyze _ r :=
    { outcome := .ok
        { nodes := [.ofFile r.path]
          edges := if "a.cs" ∈ r.ids then [.ofCall r.path ⟨"a.cs"⟩] else [] } }
  refusal? _ c := if c = .saveEdges then some "no edges" else none

theorem grounded_callsA : callsA.Grounded := by
  intro n r o ho e he
  simp only [callsA, Except.ok.injEq] at ho
  subst ho
  split at he
  · rename_i hr
    obtain rfl := List.mem_singleton.1 he
    exact ⟨.inl (List.mem_singleton.2 rfl), .inr hr⟩
  · simp at he

/-- A project after two files were indexed and the first, to which the second refers, was analyzed
again. -/
def Project.reread : Project :=
  ((Assignment.process [.modified ⟨"a.cs"⟩] true).apply callsA
    ((Assignment.index [⟨"a.cs"⟩, ⟨"b.cs"⟩]).apply callsA Project.unread).1).1

/-- The edge between the two files has both its ends. -/
theorem Regime.Live.both_ends_stored_reread :
    Project.reread.store.allEdges.map Edge.id = ["b.cs"] ∧ Regime.grounded.Live Project.reread ∧
    ∀ e ∈ Project.reread.store.allEdges,
      Project.reread.store.hasNode e.source = true ∧
        Project.reread.store.hasNode e.target = true := by
  have hunread : Regime.grounded.Live Project.unread := .start (.inl Project.fresh_unread)
  have hreread : Regime.grounded.Live Project.reread :=
    .done (.done hunread grounded_callsA trivial) grounded_callsA trivial
  exact ⟨by decide +kernel, hreread, Regime.Live.both_ends_stored hreread⟩

end CodeGraph

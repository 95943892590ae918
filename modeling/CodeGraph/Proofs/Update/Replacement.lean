import CodeGraph.Proofs.Update.Visit

/-!
# What a visit leaves in the graph

A visit replaces the data of its file, and drops that of the place the file was moved from. It can
be described by what the graph holds for each identifier, whatever identifiers the output uses: a
declaration of the output hides one of another file, and an edge that comes back hides one of the
output.

* `Project.Spares`: an edge that stays when a file is dropped.
* `Project.edge?_dropFiles`, `Project.mem_orphaned_dropFiles`: the edges after several files were
  dropped, and those kept aside.
* `Output.node?`, `Output.edge?`: what an output says about an identifier.
* `Project.Restores`: an edge that comes back in a visit.
* **`Project.node?_handle`**, **`Project.edge?_handle`**: the graph after a visit that succeeded.
-/

namespace CodeGraph

namespace Project

/-! ## Dropping several files -/

/-- An edge that neither was found in a file nor ends at one of its declarations. -/
def Spares (s : Store) (path : Path) (e : Edge) : Prop :=
  e.file.map Path.parts ≠ some path.parts ∧ ¬ Meets s path e

theorem Dropped.meets_iff {before after : Store} {path : Path} {r : Removal}
    (hd : Dropped before path after r) {e : Edge} (he : ¬ Meets before path e) (f : Path) :
    Meets after f e ↔ Meets before f e := by
  have hstays : ∀ {i n}, before.node? i = some n → (i = e.source ∨ i = e.target) →
      after.node? i = some n := by
    intro i n hn hi
    refine hd.node?.2 ⟨hn, fun hfile => he ⟨n, ?_, hfile⟩⟩
    rcases hi with rfl | rfl
    · exact .inl hn
    · exact .inr hn
  constructor
  · rintro ⟨n, hn, hfile⟩
    exact ⟨n, hn.imp (fun hn => (hd.node?.1 hn).1) (fun hn => (hd.node?.1 hn).1), hfile⟩
  · rintro ⟨n, hn, hfile⟩
    exact ⟨n, hn.imp (fun hn => hstays hn (.inl rfl)) (fun hn => hstays hn (.inr rfl)), hfile⟩

section DropFiles

variable {p : Project} (h : p.store.Coherent) {paths : List Path}
include h

theorem node?_dropFiles {i : NodeId} {n : Node} :
    (p.dropFiles paths).1.store.node? i = some n ↔
      p.store.node? i = some n ∧ ∀ f ∈ paths, n.file.parts ≠ f.parts := by
  induction paths generalizing p with
  | nil => simp [dropFiles]
  | cons path paths ih =>
    have hd := dropped_dropFile h path
    rw [dropFiles, ih hd.coherent, hd.node?, List.forall_mem_cons, and_assoc]

theorem edge?_dropFiles {i : EdgeId} {e : Edge} :
    (p.dropFiles paths).1.store.edge? i = some e ↔
      p.store.edge? i = some e ∧ ∀ f ∈ paths, Spares p.store f e := by
  induction paths generalizing p with
  | nil => simp [dropFiles]
  | cons path paths ih =>
    have hd := dropped_dropFile h path
    rw [dropFiles, ih hd.coherent, hd.edge?, hd.touches_iff, List.forall_mem_cons, and_assoc]
    refine and_congr_right fun _ => and_congr_right fun hspares => ?_
    simp only [Spares, hd.meets_iff hspares.2]

/-- The edges that are kept aside: those of other files that end at a declaration of the first file
that does not spare them. -/
theorem mem_orphaned_dropFiles {e : Edge} :
    e ∈ (p.dropFiles paths).2.2 ↔ p.store.edge? e.id = some e ∧ ∃ pre f post,
      paths = pre ++ f :: post ∧ (∀ g ∈ pre, Spares p.store g e) ∧
        e.file.map Path.parts ≠ some f.parts ∧ Meets p.store f e := by
  induction paths generalizing p with
  | nil => simp [dropFiles]
  | cons path paths ih =>
    have hd := dropped_dropFile h path
    rw [dropFiles, List.mem_append, hd.mem_orphaned, ih hd.coherent, hd.edge?, hd.touches_iff]
    constructor
    · rintro (⟨he, hfile, hmeets⟩ | ⟨⟨he, hspares⟩, pre, f, post, rfl, hpre, hfile, hmeets⟩)
      · exact ⟨he, [], path, paths, rfl, by simp, hfile, hmeets⟩
      · simp only [Spares, hd.meets_iff hspares.2] at hpre hmeets
        exact ⟨he, path :: pre, f, post, rfl, List.forall_mem_cons.2 ⟨hspares, hpre⟩, hfile, hmeets⟩
    · rintro ⟨he, pre, f, post, hpaths, hpre, hfile, hmeets⟩
      cases pre with
      | nil =>
        obtain ⟨rfl, rfl⟩ := List.cons.inj hpaths
        exact .inl ⟨he, hfile, hmeets⟩
      | cons g pre =>
        obtain ⟨rfl, rfl⟩ := List.cons.inj hpaths
        obtain ⟨hspares, hpre⟩ := List.forall_mem_cons.1 hpre
        refine .inr ⟨⟨he, hspares⟩, pre, f, post, rfl, ?_⟩
        simp only [Spares, hd.meets_iff hspares.2]
        exact ⟨hpre, hfile, hmeets⟩

end DropFiles

end Project

/-! ## The graph after a visit -/

namespace Output

/-- The declaration of an output under an identifier; the last one counts. -/
def node? (o : Output) (i : NodeId) : Option Node := o.nodes.reverse.find? (·.id == i)

/-- The edge of the output for a file under an identifier; the last one counts. -/
def edge? (o : Output) (path : Path) (i : EdgeId) : Option Edge :=
  (o.edges.map (Project.ownEdge path)).reverse.find? (·.id == i)

theorem node?_eq_some {o : Output} {i : NodeId} {n : Node} (h : o.node? i = some n) :
    n ∈ o.nodes ∧ n.id = i :=
  ⟨List.mem_reverse.1 (List.mem_of_find?_eq_some h), by simpa using List.find?_some h⟩

theorem edge?_eq_some {o : Output} {path : Path} {i : EdgeId} {e : Edge}
    (h : o.edge? path i = some e) : e ∈ o.edges.map (Project.ownEdge path) ∧ e.id = i :=
  ⟨List.mem_reverse.1 (List.mem_of_find?_eq_some h), by simpa using List.find?_some h⟩

theorem node?_eq_none {o : Output} {i : NodeId} : o.node? i = none ↔ i ∉ o.nodes.map Node.id := by
  rw [node?, Store.find?_reverse_eq_none, List.mem_map]
  grind

@[simp] theorem node?_empty (i : NodeId) : ({} : Output).node? i = none := rfl

@[simp] theorem edge?_empty (path : Path) (i : EdgeId) : ({} : Output).edge? path i = none := rfl

end Output

namespace Project

/-- An edge that is kept aside while the old data of a change goes, and comes back at the end. -/
def Restores (p q : Project) (c : Change) (e : Edge) : Prop :=
  p.store.edge? e.id = some e ∧
  (∃ pre f post, c.places = pre ++ f :: post ∧ (∀ g ∈ pre, Spares p.store g e) ∧
    e.file.map Path.parts ≠ some f.parts ∧ Meets p.store f e) ∧
  q.store.hasNode e.source = true ∧ q.store.hasNode e.target = true

section Handle

variable {w : World} {p q : Project} {s s' : Summary} {c : Change} {h : Handling}
  (hc : p.store.Coherent) (hh : p.handle w s c = (q, s', .ok h))
include hc hh

/-- **The declarations after a visit**: those of the output, and those of the files that the visit
is not about. -/
theorem node?_handle {i : NodeId} {n : Node} :
    q.store.node? i = some n ↔ h.output.node? i = some n ∨ (h.output.node? i = none ∧
      p.store.node? i = some n ∧ ∀ f ∈ c.places, n.file.parts ≠ f.parts) := by
  obtain ⟨-, hq⟩ := handle_eq_ok hh
  by_cases hdel : c.isDeletion = true
  · rw [if_pos hdel] at hq
    rw [hq.2.1, hq.1, node?_dropFiles hc]
    simp
  · rw [if_neg hdel] at hq
    rw [hq.1, node?_integrated, Option.or_eq_some_iff, node?_dropFiles hc]
    rfl

theorem not_restores_of_isDeletion (hdel : c.isDeletion = true) (e : Edge) :
    ¬ Restores p q c e := by
  obtain ⟨-, hq⟩ := handle_eq_ok hh
  rw [if_pos hdel] at hq
  rintro ⟨-, ⟨pre, f, post, hplaces, -, -, n, hn, hfile⟩, hsource, htarget⟩
  have hgone : ∀ {i}, p.store.node? i = some n → q.store.hasNode i = true → False := by
    intro i hn hi
    obtain ⟨m, hm⟩ := Store.hasNode_iff.1 hi
    rw [hq.2.1, node?_dropFiles hc, hn] at hm
    obtain rfl := Option.some.inj hm.1
    exact hm.2 f (hplaces ▸ List.mem_append_right _ List.mem_cons_self) hfile
  rcases hn with hn | hn
  · exact hgone hn hsource
  · exact hgone hn htarget

/-- **The edges after a visit**: those that come back, those of the output, and those that the visit
spares. -/
theorem edge?_handle {i : EdgeId} {e : Edge} :
    q.store.edge? i = some e ↔ (Restores p q c e ∧ e.id = i) ∨
      ((∀ e', Restores p q c e' → e'.id ≠ i) ∧ (h.output.edge? c.path i = some e ∨
        (h.output.edge? c.path i = none ∧ p.store.edge? i = some e ∧
          ∀ f ∈ c.places, Spares p.store f e))) := by
  obtain ⟨-, hq⟩ := handle_eq_ok hh
  by_cases hdel : c.isDeletion = true
  · have hnone := not_restores_of_isDeletion hc hh hdel
    rw [if_pos hdel] at hq
    rw [hq.2.1, hq.1, edge?_dropFiles hc]
    simp [hnone]
  · rw [if_neg hdel] at hq
    have hrestored : ∀ {e}, e ∈ ((p.dropFiles c.places).2.2.filter fun e =>
        q.store.hasNode e.source && q.store.hasNode e.target) ↔ Restores p q c e := by
      intro e
      rw [List.mem_filter, mem_orphaned_dropFiles hc, Bool.and_eq_true, and_assoc]
      rfl
    have hdistinct : Store.Distinct Edge.id ((p.dropFiles c.places).2.2.filter fun e =>
        q.store.hasNode e.source && q.store.hasNode e.target) := by
      intro a ha b hb hab
      have ha' := (hrestored.1 ha).1
      rw [hab, (hrestored.1 hb).1] at ha'
      exact (Option.some.inj ha').symm
    have hedge := edge?_integrated (p.dropFiles c.places).1.store c.path h.output
      (p.dropFiles c.places).2.2 i
    rw [← hq.1] at hedge
    rw [hedge, Option.or_assoc, Store.find?_reverse_or_eq_some hdistinct, Option.or_eq_some_iff,
      edge?_dropFiles hc]
    simp only [hrestored]
    rfl

end Handle

/-! ## A file that was not moved -/

/-- An edge of another file that ends at the old data of a file and comes back. -/
def Returns (p q : Project) (path : Path) (e : Edge) : Prop :=
  p.store.edge? e.id = some e ∧ e.file.map Path.parts ≠ some path.parts ∧
    Meets p.store path e ∧ q.store.hasNode e.source = true ∧ q.store.hasNode e.target = true

/-- The project after the data of a file was replaced by an output, whatever identifiers it uses. -/
structure Replaced (p : Project) (path : Path) (output : Output) (q : Project) : Prop where
  node? : ∀ {i n}, q.store.node? i = some n ↔ output.node? i = some n ∨
    (output.node? i = none ∧ p.store.node? i = some n ∧ n.file.parts ≠ path.parts)
  edge? : ∀ {i e}, q.store.edge? i = some e ↔ (Returns p q path e ∧ e.id = i) ∨
    ((∀ e', Returns p q path e' → e'.id ≠ i) ∧ (output.edge? path i = some e ∨
      (output.edge? path i = none ∧ p.store.edge? i = some e ∧ Spares p.store path e)))
  references : q.references = recordEdges (p.references.removeFile path) path
    (output.edges.map (ownEdge path))

theorem replaced_handle {w : World} {p q : Project} {s s' : Summary} {c : Change} {h : Handling}
    (hc : p.store.Coherent) (hh : p.handle w s c = (q, s', .ok h)) (hsource : c.source? = none) :
    Replaced p c.path h.output q := by
  have hplaces : c.places = [c.path] := by rw [Change.places, hsource]; rfl
  have hreturns : ∀ e, Restores p q c e ↔ Returns p q c.path e := by
    intro e
    refine and_congr_right fun _ => ?_
    rw [hplaces]
    constructor
    · rintro ⟨⟨pre, f, post, hpath, -, hfile, hmeets⟩, hends⟩
      obtain rfl : c.path = f := by
        rcases pre with _ | ⟨g, pre⟩
        · exact (List.cons.inj hpath).1
        · simp at hpath
      exact ⟨hfile, hmeets, hends⟩
    · rintro ⟨hfile, hmeets, hends⟩
      exact ⟨⟨[], c.path, [], rfl, by simp, hfile, hmeets⟩, hends⟩
  refine ⟨?_, ?_, ?_⟩
  · intro i n
    rw [node?_handle hc hh, hplaces]
    simp
  · intro i e
    rw [edge?_handle hc hh, hplaces]
    simp [hreturns]
  · obtain ⟨-, hq⟩ := handle_eq_ok hh
    rw [hplaces] at hq
    split at hq
    · rw [hq.1, hq.2.2]
      rfl
    · exact hq.2

end Project

end CodeGraph

import CodeGraph.Proofs.References
import CodeGraph.Proofs.Update.File

/-!
# Renewing the data of a file

Removing a file and taking its analysis in replaces what the graph held for the file. An edge of
another file stays, unless it ended at a declaration of the file that is not there any more.

* `Project.Fits`: an output whose identifiers no other file uses.
* `Project.Renewed`: the store after the data of a file was replaced.
* **`Project.renewed_integrated`**, **`Project.renewed_dropped`**: a file that is analyzed again,
  and one that is gone.
* `Project.mem_targets_recordEdges`: the references after an analysis was taken in.
-/

namespace CodeGraph

namespace Project

/-! ## The store -/

/-- An output with distinct identifiers, none of which another file uses. -/
structure Fits (before : Store) (path : Path) (output : Output) : Prop where
  nodes : Store.Distinct Node.id output.nodes
  edges : Store.Distinct Edge.id output.edges
  node_other : ∀ {n m : Node}, before.node? n.id = some n → n.file.parts ≠ path.parts →
    m ∈ output.nodes → m.id ≠ n.id
  edge_other : ∀ {e d : Edge}, before.edge? e.id = some e →
    e.file.map Path.parts ≠ some path.parts → d ∈ output.edges → d.id ≠ e.id

/-- An edge that ends at a declaration of a file. -/
def Meets (s : Store) (path : Path) (e : Edge) : Prop :=
  ∃ n, (s.node? e.source = some n ∨ s.node? e.target = some n) ∧ n.file.parts = path.parts

/-- The store after the data of a file was replaced by an output. -/
structure Renewed (before : Store) (path : Path) (output : Output) (after : Store) : Prop where
  coherent : after.Coherent
  node? : ∀ {i n}, after.node? i = some n ↔
    (n ∈ output.nodes ∧ n.id = i) ∨ (before.node? i = some n ∧ n.file.parts ≠ path.parts)
  edge? : ∀ {i e}, after.edge? i = some e ↔
    (e ∈ output.edges.map (ownEdge path) ∧ e.id = i) ∨
    (before.edge? i = some e ∧ e.file.map Path.parts ≠ some path.parts ∧
      (Meets before path e → after.hasNode e.source = true ∧ after.hasNode e.target = true))

section Renewed

variable {before after : Store} {path : Path} {r : Removal} (hd : Dropped before path after r)
include hd

theorem Dropped.touches_iff {e : Edge} : Store.Touches e r.nodes ↔ Meets before path e := by
  rw [Store.Touches, hd.mem_nodes, hd.mem_nodes, Meets]
  grind

theorem renewed_dropped : Renewed before path {} after := by
  refine ⟨hd.coherent, fun {i n} => ?_, fun {i e} => ?_⟩
  · rw [hd.node?]
    simp
  · rw [hd.edge?, hd.touches_iff]
    have hgone : Meets before path e →
        ¬ (after.hasNode e.source = true ∧ after.hasNode e.target = true) := by
      rintro ⟨n, hn, hfile⟩ ⟨hs, ht⟩
      rw [Store.hasNode_iff] at hs ht
      obtain ⟨m, hm⟩ := hs
      obtain ⟨m', hm'⟩ := ht
      obtain ⟨hb, hne⟩ := hd.node?.1 hm
      obtain ⟨hb', hne'⟩ := hd.node?.1 hm'
      rcases hn with hn | hn
      · rw [hn] at hb
        cases hb
        exact hne hfile
      · rw [hn] at hb'
        cases hb'
        exact hne' hfile
    simp only [List.map_nil, List.not_mem_nil, false_and, false_or]
    grind

variable {output : Output} (hf : Fits before path output)
include hf

omit hd in
theorem Fits.distinct_own : Store.Distinct Edge.id (output.edges.map (ownEdge path)) := by
  intro a ha b hb hab
  obtain ⟨a', ha', rfl⟩ := List.mem_map.1 ha
  obtain ⟨b', hb', rfl⟩ := List.mem_map.1 hb
  rw [ownEdge_id, ownEdge_id] at hab
  rw [hf.edges a' ha' b' hb' hab]

theorem renewed_integrated (hc : before.Coherent) :
    Renewed before path output (integrated after path output r.orphaned) := by
  refine ⟨coherent_integrated hd.coherent _ _ _, fun {i n} => ?_, fun {i e} => ?_⟩
  · rw [node?_integrated, Store.find?_reverse_or_eq_some hf.nodes, hd.node?]
    refine or_congr_right ⟨fun h => h.2, fun h => ⟨fun m hm => ?_, h⟩⟩
    have hid := hc.node_id h.1
    rw [← hid]
    exact hf.node_other (hid ▸ h.1) h.2 hm
  · generalize hend : integrated after path output r.orphaned = last
    have hrestored : Store.Distinct Edge.id
        (r.orphaned.filter fun e => last.hasNode e.source && last.hasNode e.target) := by
      intro a ha b hb hab
      have ha' := (hd.mem_orphaned.1 (List.mem_filter.1 ha).1).1
      have hb' := (hd.mem_orphaned.1 (List.mem_filter.1 hb).1).1
      rw [hab, hb'] at ha'
      exact (Option.some.inj ha').symm
    have hother : ∀ {e' d : Edge}, before.edge? e'.id = some e' →
        e'.file.map Path.parts ≠ some path.parts → d ∈ output.edges.map (ownEdge path) →
        d.id ≠ e'.id := by
      intro e' d he hfile hm
      obtain ⟨d', hd', rfl⟩ := List.mem_map.1 hm
      rw [ownEdge_id]
      exact hf.edge_other he hfile hd'
    have hedge := edge?_integrated after path output r.orphaned i
    rw [hend] at hedge
    rw [hedge, Option.or_assoc, Store.find?_reverse_or_eq_some hrestored,
      Store.find?_reverse_or_eq_some hf.distinct_own, hd.edge?, hd.touches_iff]
    simp only [List.mem_filter, hd.mem_orphaned, Bool.and_eq_true, hd.touches_iff]
    constructor
    · rintro (⟨⟨⟨he, hfile, -⟩, hends⟩, rfl⟩ | ⟨-, he | ⟨-, he, hfile, hmeets⟩⟩)
      · exact .inr ⟨he, hfile, fun _ => hends⟩
      · exact .inl he
      · exact .inr ⟨he, hfile, fun hm => absurd hm hmeets⟩
    · rintro (⟨he, rfl⟩ | ⟨he, hfile, hmeets⟩)
      · refine .inr ⟨fun e' he' => ?_, .inl ⟨he, rfl⟩⟩
        exact Ne.symm (hother he'.1.1 he'.1.2.1 he)
      · have hid := hc.edge_id he
        subst hid
        by_cases hm : Meets before path e
        · exact .inl ⟨⟨⟨he, hfile, hm⟩, hmeets hm⟩, rfl⟩
        · refine .inr ⟨fun e' he' hid => ?_, .inr ⟨fun d hd' => hother he hfile hd', he, hfile, hm⟩⟩
          have hsame := he'.1.1
          rw [hid, he] at hsame
          cases hsame
          exact hm he'.1.2.2

end Renewed

/-! ## The references -/

theorem mem_targets_recordEdges {r : References} {path : Path} {edges : List Edge} {t : NodeId}
    {k : List Part} :
    t ∈ Index.bucket (recordEdges r path edges).targets k ↔
      (k = path.parts ∧ ∃ e ∈ edges, e.kind ≠ .contains ∧ e.target = t) ∨
        t ∈ Index.bucket r.targets k := by
  unfold recordEdges
  induction edges generalizing r with
  | nil => simp
  | cons e edges ih =>
    rw [List.foldl_cons, ih]
    simp only [List.mem_cons, exists_eq_or_imp]
    by_cases hk : e.kind = .contains
    · simp [hk]
    · rw [if_neg (by simpa using hk), References.mem_targets_record]
      grind

theorem mutual_recordEdges {r : References} (h : r.Mutual) (path : Path) (edges : List Edge) :
    (recordEdges r path edges).Mutual := by
  unfold recordEdges
  induction edges generalizing r with
  | nil => exact h
  | cons e edges ih =>
    rw [List.foldl_cons]
    split
    · exact ih h
    · exact ih (h.record path e.target)

theorem getElem?_filesOf_recordEdges {r : References} {path : Path} {edges : List Edge}
    {t : NodeId} {k : List Part} {f : Path}
    (h : ((recordEdges r path edges).filesOf t)[k]? = some f) :
    f = path ∨ (r.filesOf t)[k]? = some f := by
  unfold recordEdges at h
  induction edges generalizing r with
  | nil => exact .inr h
  | cons e edges ih =>
    rw [List.foldl_cons] at h
    rcases ih h with hf | hf
    · exact .inl hf
    · split at hf
      · exact .inr hf
      · rcases References.getElem?_filesOf_record hf with ⟨hf, -⟩ | hf
        · exact .inl hf
        · exact .inr hf

end Project

end CodeGraph

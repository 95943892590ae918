import CodeGraph.Proofs.Query.Ascent
import CodeGraph.Proofs.Query.Assembly

/-!
# Outlines of files

The outline of a file puts each declaration under its nearest container in the file. What is shown
is what such containers lead up from to a declaration without one. On a circle of containers with
two declarations of the file each has the other around it, so neither is shown, nor what is inside.

* `Store.InFile`, `Store.parentIn?`: the declarations of a file, and where they are put.
* `Store.outlined`: a file's outline; what stands in it (`Store.mem_parts_outlined`), as deep as the
  file has declarations (`Store.level_lt_of_mem_parts`). It is assembled as it grows
  (`Store.assemble_topIn`).
* `Store.Entangled`, `Store.Stranded`: declarations around each other, and what is inside them; all
  others are shown (`Store.mem_nodes_outlined`).
* **`Store.run_fileOutline_nests`**: after any sequence of operations that leaves no declaration
  above itself, an outline shows the declarations of the file, each under its nearest container.
* **`Store.run_fileOutline_total_iff`**: in general it shows as many as it counts exactly if no two
  are around each other; `Store.boxes_outline_loses`: an outline that counts three and shows none.
-/

namespace CodeGraph

open Std

/-- The outlines within the outline of a file in preorder, each with its level. -/
def FileOutline.parts (f : FileOutline) : List (Outline × Nat) := Outline.partsOf 0 f.roots

/-- The declarations in the outline of a file in preorder. -/
def FileOutline.nodes (f : FileOutline) : List Node := f.parts.map (·.1.node)

theorem FileOutline.length_nodes (f : FileOutline) : f.nodes.length = Outline.sizes f.roots := by
  rw [nodes, List.length_map, parts, Outline.length_partsOf]

namespace Store

variable {s : Store} {path : Path} {id : NodeId}

/-! ## The declarations of a file -/

/-- An identifier is that of a declaration of a file. -/
def InFile (s : Store) (path : Path) (id : NodeId) : Prop :=
  ∃ n, s.node? id = some n ∧ n.file.same path = true

theorem InFile.hasNode (h : s.InFile path id) : s.hasNode id = true := by
  obtain ⟨n, hn, -⟩ := h
  exact hasNode_iff.2 ⟨n, hn⟩

theorem mem_nodesByFile (hs : s.Coherent) {n : Node} :
    n ∈ s.nodesByFile path ↔ s.node? n.id = some n ∧ s.InFile path n.id := by
  rw [hs.nodesByFile_eq, List.mem_filter, mem_allNodes hs]
  refine and_congr_right fun hn => ⟨fun hfile => ⟨n, hn, hfile⟩, ?_⟩
  rintro ⟨m, hm, hfile⟩
  rwa [Option.some_inj.1 (hn.symm.trans hm)]

theorem mem_map_id_nodesByFile (hs : s.Coherent) :
    id ∈ (s.nodesByFile path).map (·.id) ↔ s.InFile path id := by
  rw [List.mem_map]
  constructor
  · rintro ⟨n, hn, rfl⟩
    exact ((mem_nodesByFile hs).1 hn).2
  · rintro ⟨n, hn, hfile⟩
    obtain rfl := hs.node_id hn
    exact ⟨n, (mem_nodesByFile hs).2 ⟨hn, n, hn, hfile⟩, rfl⟩

theorem nodup_map_id_nodesByFile (hs : s.Coherent) :
    ((s.nodesByFile path).map (·.id)).Nodup := by
  rw [hs.nodesByFile_eq]
  exact (nodup_map_id_allNodes hs).sublist (List.filter_sublist.map _)

/-- The declaration of a file under which its outline puts another. -/
def parentIn? (s : Store) (path : Path) (id : NodeId) : Option NodeId :=
  s.containerAmong? (ExtTreeSet.ofList ((s.nodesByFile path).map (·.id))) id

theorem mem_ofList_nodesByFile (hs : s.Coherent) :
    id ∈ ExtTreeSet.ofList ((s.nodesByFile path).map (·.id)) ↔ s.InFile path id := by
  rw [← mem_map_id_nodesByFile hs]
  simp

theorem parentIn?_eq_none_iff (hs : s.Coherent) : s.parentIn? path id = none ↔
    ∀ p, Relation.TransGen s.Within id p → p ≠ id → ¬ s.InFile path p := by
  simp only [parentIn?, containerAmong?_eq_none_iff hs, mem_ofList_nodesByFile hs]

theorem parentIn?_eq_some_iff (hs : s.Coherent) {p : NodeId} : s.parentIn? path id = some p ↔
    s.NearestContainer (s.InFile path) id p ∧ p ≠ id := by
  simp only [parentIn?, containerAmong?_eq_some_iff hs, mem_ofList_nodesByFile hs]

theorem parentIn?_of_acyclic (hs : s.Coherent) (hacyclic : s.Acyclic) {p : NodeId} :
    s.parentIn? path id = some p ↔ s.NearestContainer (s.InFile path) id p := by
  rw [parentIn?_eq_some_iff hs, and_iff_left_iff_imp]
  rintro hp rfl
  exact hacyclic p hp.mem.hasNode hp.reaches

/-! ## What an outline is grown from -/

/-- The declarations of a file with none around them in it. -/
def topIn (s : Store) (path : Path) : List Node :=
  (s.nodesByFile path).filter fun n => (s.parentIn? path n.id).isNone

/-- The declarations of a file that are put under each. -/
def heldIn (s : Store) (path : Path) : ExtTreeMap NodeId (List Node) :=
  ((s.nodesByFile path).map fun n => (n, s.parentIn? path n.id)).foldl
    (fun inside (n, parent?) => match parent? with
      | some parent => addInside inside parent n
      | none => inside) ∅

/-- The outline of a file. -/
def outlined (s : Store) (path : Path) : FileOutline :=
  { file := path
    roots := (sortBy sourceOrder (s.topIn path)).map
      (Outline.grow (s.heldIn path) (s.nodesByFile path).length)
    total := (s.nodesByFile path).length }

theorem heldBy_foldl_placed (placed : List (Node × Option NodeId))
    (inside : ExtTreeMap NodeId (List Node)) (a : NodeId) :
    heldBy (placed.foldl (fun inside (n, parent?) => match parent? with
      | some parent => addInside inside parent n
      | none => inside) inside) a =
      heldBy inside a ++ (placed.filter (·.2 == some a)).map (·.1) := by
  induction placed generalizing inside with
  | nil => simp
  | cons p placed ih =>
    obtain ⟨n, parent?⟩ := p
    cases parent? with
    | none => simpa using ih inside
    | some parent =>
      rw [List.foldl_cons, ih, heldBy_addInside, List.append_assoc]
      by_cases hparent : parent = a <;> simp [hparent]

theorem heldBy_heldIn (a : NodeId) : heldBy (s.heldIn path) a =
    (s.nodesByFile path).filter fun n => s.parentIn? path n.id == some a := by
  rw [heldIn, heldBy_foldl_placed, List.filter_map, List.map_map]
  simp [heldBy, Function.comp_def]

theorem mem_heldBy_heldIn {n : Node} {a : NodeId} : n ∈ heldBy (s.heldIn path) a ↔
    n ∈ s.nodesByFile path ∧ s.parentIn? path n.id = some a := by
  rw [heldBy_heldIn, List.mem_filter, beq_iff_eq]

theorem mem_topIn {n : Node} :
    n ∈ s.topIn path ↔ n ∈ s.nodesByFile path ∧ s.parentIn? path n.id = none := by
  rw [topIn, List.mem_filter, Option.isNone_iff_eq_none]

theorem nodup_map_id_topIn (hs : s.Coherent) : ((s.topIn path).map (·.id)).Nodup :=
  (nodup_map_id_nodesByFile hs).sublist (List.filter_sublist.map _)

theorem HoldingId.parentIn? {a b : NodeId} (h : HoldingId (s.heldIn path) a b) :
    s.parentIn? path b = some a := by
  obtain ⟨n, hn, rfl⟩ := h
  exact (mem_heldBy_heldIn.1 hn).2

theorem not_holdingId_topIn {r : Node} (hr : r ∈ s.topIn path) (a : NodeId) :
    ¬ HoldingId (s.heldIn path) a r.id := by
  intro har
  have hnone := (mem_topIn.1 hr).2
  rw [HoldingId.parentIn? har] at hnone
  cases hnone

theorem apart_topIn (hs : s.Coherent) (path : Path) :
    Apart (s.heldIn path) (sortBy sourceOrder (s.topIn path)) := by
  refine Apart.of_not_holdingId ?_ fun r hr => not_holdingId_topIn ((mem_sortBy _ _).1 hr)
  exact ((perm_sortBy sourceOrder _).map Node.id).nodup_iff.2 (nodup_map_id_topIn hs)

theorem parted_heldIn (hs : s.Coherent) (path : Path) : Parted (s.heldIn path) where
  once a := by
    rw [heldBy_heldIn]
    exact (nodup_map_id_nodesByFile hs).sublist (List.filter_sublist.map _)
  single a a' b hab hab' :=
    Option.some_inj.1 ((HoldingId.parentIn? hab).symm.trans (HoldingId.parentIn? hab'))

/-! ## What stands in an outline -/

theorem mem_parts_outlined {o : Outline} {l : Nat} : (o, l) ∈ (s.outlined path).parts ↔
    ∃ r ∈ s.topIn path, ∃ n, l ≤ (s.nodesByFile path).length ∧
      StepsTo (Holding (s.heldIn path)) l r n ∧
      o = Outline.grow (s.heldIn path) ((s.nodesByFile path).length - l) n := by
  rw [FileOutline.parts, outlined, Outline.mem_partsOf_grow]
  simp only [mem_sortBy, Nat.zero_add]
  constructor
  · rintro ⟨r, hr, j, n, rfl, hj, hrn, rfl⟩
    exact ⟨r, hr, n, hj, hrn, rfl⟩
  · rintro ⟨r, hr, n, hl, hrn, rfl⟩
    exact ⟨r, hr, l, n, rfl, hl, hrn, rfl⟩

theorem mem_nodesByFile_of_stepsTo {r n : Node} (hr : r ∈ s.topIn path) {j : Nat}
    (hrn : StepsTo (Holding (s.heldIn path)) j r n) : n ∈ s.nodesByFile path := by
  cases j with
  | zero => exact (show r = n from hrn) ▸ (mem_topIn.1 hr).1
  | succ j =>
    obtain ⟨c, -, hcn⟩ := hrn
    exact (mem_heldBy_heldIn.1 hcn).1

theorem nodup_map_id_nodes_outlined (hs : s.Coherent) :
    ((s.outlined path).nodes.map (·.id)).Nodup := by
  rw [FileOutline.nodes, List.map_map]
  exact (parted_heldIn hs path).nodup_partsOf_grow _ 0 (apart_topIn hs path)

theorem nodes_outlined_subset : (s.outlined path).nodes ⊆ s.nodesByFile path := by
  intro n hn
  obtain ⟨⟨o, l⟩, ho, rfl⟩ := List.mem_map.1 hn
  obtain ⟨r, hr, n, -, hrn, rfl⟩ := mem_parts_outlined.1 ho
  rw [Outline.node_grow]
  exact mem_nodesByFile_of_stepsTo hr hrn

theorem nodes_outlined_subperm (hs : s.Coherent) :
    (s.outlined path).nodes.Subperm (s.nodesByFile path) :=
  List.subperm_of_subset (nodup_map_id_nodes_outlined hs).of_map nodes_outlined_subset

theorem level_lt_of_mem_parts (hs : s.Coherent) {p : Outline × Nat}
    (hp : p ∈ (s.outlined path).parts) : p.2 < (s.nodesByFile path).length := by
  have hlt : p.2 < ((s.outlined path).parts.map (·.2)).length := by
    refine lt_length_of_level (fun k hk => ?_) (List.mem_map_of_mem hp)
    obtain ⟨⟨o, l⟩, ho, rfl⟩ := List.mem_map.1 hk
    obtain ⟨r, hr, n, hle, ⟨c, hrc, -⟩, -⟩ := mem_parts_outlined.1 ho
    exact List.mem_map.2 ⟨(_, k), mem_parts_outlined.2 ⟨r, hr, c, by omega, hrc, rfl⟩, rfl⟩
  have hle : (s.outlined path).nodes.length ≤ (s.nodesByFile path).length :=
    (nodes_outlined_subperm hs).length_le
  rw [FileOutline.nodes, List.length_map] at hle
  rw [List.length_map] at hlt
  omega

/-- Each step from a root leads to what is shown, hence less deep than the outline may go. -/
theorem lt_length_of_stepsTo (hs : s.Coherent) {r n : Node} (hr : r ∈ s.topIn path) {j : Nat}
    (hrn : StepsTo (Holding (s.heldIn path)) j r n) : j < (s.nodesByFile path).length := by
  induction j generalizing n with
  | zero => exact List.length_pos_of_mem (mem_topIn.1 hr).1
  | succ j ih =>
    obtain ⟨c, hrc, hcn⟩ := hrn
    exact level_lt_of_mem_parts hs
      (mem_parts_outlined.2 ⟨r, hr, n, ih hrc, ⟨c, hrc, hcn⟩, rfl⟩)

theorem mem_nodes_of_stepsTo (hs : s.Coherent) {r n : Node} (hr : r ∈ s.topIn path) {j : Nat}
    (hrn : StepsTo (Holding (s.heldIn path)) j r n) : n ∈ (s.outlined path).nodes := by
  have hle := (lt_length_of_stepsTo hs hr hrn).le
  refine List.mem_map.2 ⟨_, mem_parts_outlined.2 ⟨r, hr, n, hle, hrn, rfl⟩, ?_⟩
  rw [Outline.node_grow]

/-- From what is put under each declaration of a file the outlines are assembled as they grow. -/
theorem assemble_topIn (hs : s.Coherent) :
    assemble (sortBy sourceOrder (s.topIn path)) (s.heldIn path) =
      (sortBy sourceOrder (s.topIn path)).map
        (Outline.grow (s.heldIn path) (s.nodesByFile path).length) := by
  refine (parted_heldIn hs path).assemble_eq_grow (apart_topIn hs path).once (fun r hr => ?_)
    fun r hr j n hrn => ?_
  · exact not_holdingId_topIn ((mem_sortBy _ _).1 hr)
  · exact lt_length_of_stepsTo hs ((mem_sortBy _ _).1 hr) hrn

theorem fileOutline_eq (hs : s.Coherent) (hpath : ∃ id, s.InFile path id) :
    s.fileOutline path = some (s.outlined path) := by
  have hne : s.nodesByFile path ≠ [] := by
    obtain ⟨id, hid⟩ := hpath
    exact List.ne_nil_of_mem (List.mem_map.1 ((mem_map_id_nodesByFile hs).2 hid)).choose_spec.1
  have htop : s.topIn path = (((s.nodesByFile path).map fun n =>
      (n, s.parentIn? path n.id)).filter (·.2.isNone)).map (·.1) := by
    rw [List.filter_map, List.map_map]
    exact (List.map_id _).symm
  rw [outlined, ← assemble_topIn hs, htop, fileOutline]
  split
  · exact absurd ‹_› hne
  · rfl

theorem children_of_mem_parts_outlined (hs : s.Coherent) {p : Outline × Nat}
    (hp : p ∈ (s.outlined path).parts) : p.1.children.map Outline.node =
      sortBy sourceOrder (heldBy (s.heldIn path) p.1.node.id) := by
  obtain ⟨o, l⟩ := p
  obtain ⟨r, hr, n, -, hrn, rfl⟩ := mem_parts_outlined.1 hp
  have hlt := level_lt_of_mem_parts hs hp
  dsimp only
  rw [Outline.map_node_children_grow (Nat.sub_pos_of_lt hlt), Outline.node_grow]

theorem roots_outlined : (s.outlined path).roots.map Outline.node =
    sortBy sourceOrder (s.topIn path) := by
  rw [outlined, Outline.map_node_grow]

/-! ## Declarations around each other -/

/-- Two declarations of a file are each around the other. -/
def Entangled (s : Store) (path : Path) (a b : NodeId) : Prop :=
  a ≠ b ∧ s.InFile path a ∧ s.InFile path b ∧
    Relation.TransGen s.Within a b ∧ Relation.TransGen s.Within b a

/-- An identifier is one of two declarations of a file that are around each other, or inside. -/
def Stranded (s : Store) (path : Path) (id : NodeId) : Prop :=
  ∃ a b, s.Entangled path a b ∧ Relation.ReflTransGen s.Within id a

theorem Acyclic.not_entangled (hacyclic : s.Acyclic) (a b : NodeId) : ¬ s.Entangled path a b :=
  fun ⟨_, ha, _, hab, hba⟩ => hacyclic a ha.hasNode (hab.trans hba)

theorem Stranded.exists_parentIn? (hs : s.Coherent) (h : s.Stranded path id) :
    ∃ p, s.parentIn? path id = some p ∧ s.Stranded path p := by
  obtain ⟨a, b, hent, hida⟩ := h
  obtain ⟨hne, ha, hb, hab, hba⟩ := hent
  have hidb : Relation.TransGen s.Within id b := Relation.TransGen.trans_right hida hab
  cases hparent : s.parentIn? path id with
  | none =>
    -- one of the two is not the identifier itself, and is around it
    rw [parentIn?_eq_none_iff hs] at hparent
    by_cases hid : b = id
    · exact absurd ha (hparent a (hidb.trans hba) (hid ▸ hne))
    · exact absurd hb (hparent b hidb hid)
  | some p =>
    have hidp := ((parentIn?_eq_some_iff hs).1 hparent).1.reaches.to_reflTransGen
    refine ⟨p, rfl, a, b, ⟨hne, ha, hb, hab, hba⟩, ?_⟩
    rcases Relation.ReflTransGen.total_of_right_unique s.rightUnique_within hidp hida with hpa | hap
    · exact hpa
    · exact reaches_back (hab.trans hba) hap

theorem not_stranded_of_stepsTo (hs : s.Coherent) {r n : Node} (hr : r ∈ s.topIn path) {j : Nat}
    (hrn : StepsTo (Holding (s.heldIn path)) j r n) : ¬ s.Stranded path n.id := by
  induction j generalizing n with
  | zero =>
    intro hstranded
    obtain ⟨p, hp, -⟩ := hstranded.exists_parentIn? hs
    rw [← show r = n from hrn, (mem_topIn.1 hr).2] at hp
    cases hp
  | succ j ih =>
    intro hstranded
    obtain ⟨c, hrc, hcn⟩ := hrn
    obtain ⟨p, hp, hstranded⟩ := hstranded.exists_parentIn? hs
    rw [(mem_heldBy_heldIn.1 hcn).2] at hp
    exact ih hrc (Option.some_inj.1 hp ▸ hstranded)

theorem reaches_of_parentIn? (hs : s.Coherent) {a b : NodeId} (h : s.parentIn? path a = some b) :
    Relation.TransGen s.Within a b :=
  ((parentIn?_eq_some_iff hs).1 h).1.reaches

theorem stranded_of_loop (hs : s.Coherent) {a : NodeId} (ha : s.InFile path a)
    (hloop : Relation.TransGen (fun a b => s.parentIn? path a = some b) a a) :
    s.Stranded path a := by
  obtain ⟨b, hab, hba⟩ := Relation.TransGen.head'_iff.1 hloop
  obtain ⟨hnearest, hne⟩ := (parentIn?_eq_some_iff hs).1 hab
  have hback : Relation.ReflTransGen (Relation.TransGen s.Within) b a :=
    Relation.ReflTransGen.mono (fun _ _ => reaches_of_parentIn? hs) _ _ hba
  rw [Relation.reflTransGen_transGen, Relation.reflTransGen_iff_eq_or_transGen] at hback
  exact ⟨a, b, ⟨hne.symm, ha, hnearest.mem, hnearest.reaches, hback.resolve_left hne.symm⟩, .refl⟩

/-- What is not stranded comes by way of its containers in the file to one without any. -/
theorem exists_topIn (hs : s.Coherent) (hid : s.InFile path id) (hnot : ¬ s.Stranded path id) :
    ∃ r ∈ s.topIn path, Relation.ReflTransGen (fun a b => s.parentIn? path a = some b) id r.id := by
  have hfinite : {a | s.InFile path a ∧ ¬ s.Stranded path a}.Finite :=
    (finite_hasNode hs).subset fun a ha => ha.1.hasNode
  have hstay : ∀ a ∈ {a | s.InFile path a ∧ ¬ s.Stranded path a}, ∀ b,
      s.parentIn? path a = some b → b ∈ {a | s.InFile path a ∧ ¬ s.Stranded path a} := by
    rintro a ⟨-, ha⟩ b hab
    refine ⟨((parentIn?_eq_some_iff hs).1 hab).1.mem, fun ⟨c, d, hent, hbc⟩ => ha ?_⟩
    exact ⟨c, d, hent, (reaches_of_parentIn? hs hab).to_reflTransGen.trans hbc⟩
  obtain ⟨b, hb, hclimb, hend⟩ :=
    exists_last hfinite hstay (fun a ha hloop => ha.2 (stranded_of_loop hs ha.1 hloop)) ⟨hid, hnot⟩
  obtain ⟨r, hr, rfl⟩ := List.mem_map.1 ((mem_map_id_nodesByFile hs).2 hb.1)
  exact ⟨r, mem_topIn.2 ⟨hr, Option.eq_none_iff_forall_ne_some.2 hend⟩, hclimb⟩

theorem exists_stepsTo_of_parentIn? (hs : s.Coherent) {r : Node} (hr : r ∈ s.nodesByFile path)
    (h : Relation.ReflTransGen (fun a b => s.parentIn? path a = some b) id r.id) {n : Node}
    (hn : n ∈ s.nodesByFile path) (hid : n.id = id) :
    ∃ j, StepsTo (Holding (s.heldIn path)) j r n := by
  induction h using Relation.ReflTransGen.head_induction_on generalizing n with
  | refl =>
    have hnode := ((mem_nodesByFile hs).1 hn).1
    rw [hid, ((mem_nodesByFile hs).1 hr).1] at hnode
    exact ⟨0, Option.some_inj.1 hnode⟩
  | @head a b hab _ ih =>
    have hfile := ((parentIn?_eq_some_iff hs).1 hab).1.mem
    obtain ⟨m, hm, rfl⟩ := List.mem_map.1 ((mem_map_id_nodesByFile hs).2 hfile)
    obtain ⟨j, hj⟩ := ih hm rfl
    exact ⟨j + 1, m, hj, mem_heldBy_heldIn.2 ⟨hn, hid ▸ hab⟩⟩

/-- **An outline shows the declarations of a file that are not stranded.** -/
theorem mem_nodes_outlined (hs : s.Coherent) {n : Node} : n ∈ (s.outlined path).nodes ↔
    n ∈ s.nodesByFile path ∧ ¬ s.Stranded path n.id := by
  constructor
  · intro hn
    refine ⟨nodes_outlined_subset hn, ?_⟩
    obtain ⟨⟨o, l⟩, ho, rfl⟩ := List.mem_map.1 hn
    obtain ⟨r, hr, n, -, hrn, rfl⟩ := mem_parts_outlined.1 ho
    rw [Outline.node_grow]
    exact not_stranded_of_stepsTo hs hr hrn
  · rintro ⟨hn, hnot⟩
    obtain ⟨r, hr, hclimb⟩ := exists_topIn hs ((mem_nodesByFile hs).1 hn).2 hnot
    obtain ⟨j, hj⟩ := exists_stepsTo_of_parentIn? hs (mem_topIn.1 hr).1 hclimb hn rfl
    exact mem_nodes_of_stepsTo hs hr hj

theorem total_outlined_iff (hs : s.Coherent) :
    (s.outlined path).total = Outline.sizes (s.outlined path).roots ↔
      ∀ a b, ¬ s.Entangled path a b := by
  rw [← FileOutline.length_nodes]
  constructor
  · intro htotal a b hent
    have hperm := (nodes_outlined_subperm hs).perm_of_length_le (Nat.le_of_eq htotal)
    obtain ⟨n, hn, rfl⟩ := List.mem_map.1 ((mem_map_id_nodesByFile hs).2 hent.2.1)
    exact ((mem_nodes_outlined hs).1 (hperm.mem_iff.2 hn)).2 ⟨n.id, b, hent, .refl⟩
  · intro hnone
    have hsub : s.nodesByFile path ⊆ (s.outlined path).nodes := fun n hn =>
      (mem_nodes_outlined hs).2 ⟨hn, fun ⟨a, b, hent, _⟩ => hnone a b hent⟩
    have hperm := (List.subperm_of_subset (nodup_map_id_nodesByFile hs).of_map hsub).antisymm
      (nodes_outlined_subperm hs)
    exact hperm.length_eq

/-! ## What an outline shows -/

/-- The outline of a file as an exact picture of it: it shows each declaration once, under its
nearest container in the file. -/
structure Nests (s : Store) (path : Path) (f : FileOutline) : Prop where
  file : f.file = path
  once : (f.nodes.map (·.id)).Nodup
  shown : ∀ n, n ∈ f.nodes ↔ s.node? n.id = some n ∧ s.InFile path n.id
  /-- A root has no declaration of the file around it. -/
  root : ∀ n, n ∈ f.roots.map Outline.node ↔ s.node? n.id = some n ∧ s.InFile path n.id ∧
    ∀ p, Relation.TransGen s.Within n.id p → ¬ s.InFile path p
  /-- The others stand under the first around them. -/
  child : ∀ p ∈ f.parts, ∀ n, n ∈ p.1.children.map Outline.node ↔ s.node? n.id = some n ∧
    s.InFile path n.id ∧ s.NearestContainer (s.InFile path) n.id p.1.node.id
  sorted : (f.roots.map Outline.node).Pairwise fun a b => sourceKey a < sourceKey b
  siblings : ∀ p ∈ f.parts,
    (p.1.children.map Outline.node).Pairwise fun a b => sourceKey a < sourceKey b
  /-- The total is the sum of the sizes of the roots' outlines. -/
  total : f.total = Outline.sizes f.roots

theorem nests_outlined (hs : s.Coherent) (hacyclic : s.Acyclic) (path : Path) :
    s.Nests path (s.outlined path) := by
  constructor
  case file => rfl
  case once => exact nodup_map_id_nodes_outlined hs
  case shown =>
    intro n
    rw [mem_nodes_outlined hs, mem_nodesByFile hs, and_iff_left]
    exact fun ⟨a, b, hent, _⟩ => hacyclic.not_entangled a b hent
  case root =>
    intro n
    rw [roots_outlined, mem_sortBy, mem_topIn, mem_nodesByFile hs, parentIn?_eq_none_iff hs,
      and_assoc]
    refine and_congr_right fun hn => and_congr_right fun _ => ⟨fun h p hp => h p hp ?_, ?_⟩
    · rintro rfl
      exact hacyclic _ (hasNode_iff.2 ⟨n, hn⟩) hp
    · exact fun h p hp _ => h p hp
  case child =>
    intro p hp n
    rw [children_of_mem_parts_outlined hs hp, mem_sortBy, mem_heldBy_heldIn, mem_nodesByFile hs,
      parentIn?_of_acyclic hs hacyclic, and_assoc]
  case sorted =>
    rw [roots_outlined]
    exact pairwise_sortBy_sourceOrder (nodup_map_id_topIn hs)
  case siblings =>
    intro p hp
    rw [children_of_mem_parts_outlined hs hp]
    exact pairwise_sortBy_sourceOrder ((parted_heldIn hs path).once _)
  case total => exact (total_outlined_iff hs).2 hacyclic.not_entangled

/-- **After any sequence of operations that leaves no declaration above itself, the outline of a
file nests its declarations**: it shows each once, under the first of the file that its containers
lead up to, also through other files and through identifiers that are not in the store. -/
theorem run_fileOutline_nests (ops : List Operation) (hacyclic : (run ops).Acyclic) {path : Path}
    (hpath : ∃ id, (run ops).InFile path id) :
    ∃ f, (run ops).fileOutline path = some f ∧ (run ops).Nests path f :=
  ⟨_, fileOutline_eq (coherent_run ops) hpath, nests_outlined (coherent_run ops) hacyclic path⟩

/-- A class of a file. -/
def classIn (path : Path) (id : NodeId) : Node := { boxNode .classType id with file := path }

/-- A class of one file around a class of another, around a class of the first by way of an
identifier that is not in the store. -/
def passed : List Operation :=
  [.addNodes [classIn ⟨"a.cs"⟩ "n", classIn ⟨"b.cs"⟩ "o", classIn ⟨"a.cs"⟩ "i"],
   .addEdges ([("n", "o"), ("o", "x"), ("x", "i")].map fun e =>
     { id := e.1 ++ e.2, source := e.1, target := e.2, kind := .contains })]

/-- The levels of what the edges of `passed` join. -/
def passedRank (id : NodeId) : Nat := ["n", "o", "x", "i"].idxOf id

/-- The inner class stands under the outer one, past what is between them. -/
def passedOutline : FileOutline :=
  { file := ⟨"a.cs"⟩
    roots := [.mk (classIn ⟨"a.cs"⟩ "n") [.mk (classIn ⟨"a.cs"⟩ "i") []]]
    total := 2 }

theorem run_fileOutline_nests_passed :
    (run passed).Acyclic ∧ (∃ id, (run passed).InFile ⟨"a.cs"⟩ id) ∧
    (run passed).fileOutline ⟨"a.cs"⟩ = some passedOutline ∧
    (run passed).Nests ⟨"a.cs"⟩ passedOutline := by
  have hacyclic := acyclic_of_rank (coherent_run passed) passedRank (by decide +kernel)
  have hpath : ∃ id, (run passed).InFile ⟨"a.cs"⟩ id :=
    ⟨"n", classIn ⟨"a.cs"⟩ "n", by decide +kernel, by decide⟩
  have hroots : sortBy sourceOrder ((run passed).topIn ⟨"a.cs"⟩) = [classIn ⟨"a.cs"⟩ "n"] := by
    decide +kernel
  have hunder : sortBy sourceOrder (heldBy ((run passed).heldIn ⟨"a.cs"⟩)
      (classIn ⟨"a.cs"⟩ "n").id) = [classIn ⟨"a.cs"⟩ "i"] := by
    decide +kernel
  have hinner : sortBy sourceOrder (heldBy ((run passed).heldIn ⟨"a.cs"⟩)
      (classIn ⟨"a.cs"⟩ "i").id) = [] := by
    decide +kernel
  have htotal : ((run passed).nodesByFile ⟨"a.cs"⟩).length = 2 := by decide +kernel
  have houtline : (run passed).fileOutline ⟨"a.cs"⟩ = some passedOutline := by
    rw [fileOutline_eq (coherent_run passed) hpath, outlined, hroots, htotal, List.map_singleton,
      Outline.grow_succ, hunder, List.map_singleton, Outline.grow_succ, hinner]
    rfl
  obtain ⟨f, hf, hnests⟩ := run_fileOutline_nests passed hacyclic hpath
  rw [houtline] at hf
  cases hf
  exact ⟨hacyclic, hpath, houtline, hnests⟩

/-- **After any sequence of operations the outline of a file shows, each once, the declarations that
are not stranded.** It counts all, so it shows as many as it counts exactly if no two declarations
of the file are around each other. -/
theorem run_fileOutline_total_iff (ops : List Operation) {path : Path}
    (hpath : ∃ id, (run ops).InFile path id) :
    ∃ f, (run ops).fileOutline path = some f ∧ f.total = ((run ops).nodesByFile path).length ∧
      (f.nodes.map (·.id)).Nodup ∧
      (∀ n, n ∈ f.nodes ↔ (run ops).node? n.id = some n ∧ (run ops).InFile path n.id ∧
        ¬ (run ops).Stranded path n.id) ∧
      (f.total = Outline.sizes f.roots ↔ ∀ a b, ¬ (run ops).Entangled path a b) := by
  have hs := coherent_run ops
  refine ⟨_, fileOutline_eq hs hpath, rfl, nodup_map_id_nodes_outlined hs, fun n => ?_,
    total_outlined_iff hs⟩
  rw [mem_nodes_outlined hs, mem_nodesByFile hs, and_assoc]

/-- A class of one file and a class of another that contain each other, and a class of the first
file in the second. -/
def shuttled : List Operation :=
  [.addNodes [classIn ⟨"a.cs"⟩ "p", classIn ⟨"b.cs"⟩ "q", classIn ⟨"a.cs"⟩ "r"],
   .addEdges ([("p", "q"), ("q", "p"), ("q", "r")].map fun e =>
     { id := e.1 ++ e.2, source := e.1, target := e.2, kind := .contains })]

/-- A circle with one declaration of the file does no harm. -/
theorem run_fileOutline_total_iff_shuttled :
    (∃ id, (run shuttled).InFile ⟨"a.cs"⟩ id) ∧
    ∃ f, (run shuttled).fileOutline ⟨"a.cs"⟩ = some f ∧ f.total = Outline.sizes f.roots ∧
      ∀ a b, ¬ (run shuttled).Entangled ⟨"a.cs"⟩ a b := by
  have hpath : ∃ id, (run shuttled).InFile ⟨"a.cs"⟩ id :=
    ⟨"p", classIn ⟨"a.cs"⟩ "p", by decide +kernel, by decide⟩
  have hshown : ((run shuttled).outlined ⟨"a.cs"⟩).total =
      Outline.sizes ((run shuttled).outlined ⟨"a.cs"⟩).roots := by
    decide +kernel
  have houtline := fileOutline_eq (coherent_run shuttled) hpath
  obtain ⟨f, hf, -, -, -, htotal⟩ := run_fileOutline_total_iff shuttled hpath
  rw [houtline] at hf
  cases hf
  exact ⟨hpath, _, houtline, hshown, htotal.1 hshown⟩

/-- Of two classes that contain each other and a method in the second, all in one file, the outline
of the file counts three and shows none. -/
theorem boxes_outline_loses :
    (run boxes).Entangled ⟨"b.cs"⟩ "a" "b" ∧
    ∃ f, (run boxes).fileOutline ⟨"b.cs"⟩ = some f ∧ f.total = 3 ∧ f.roots = [] ∧
      f.total ≠ Outline.sizes f.roots := by
  have hab : (run boxes).Within "a" "b" := by
    change (run boxes).container? "a" = some "b"
    decide +kernel
  have hba : (run boxes).Within "b" "a" := by
    change (run boxes).container? "b" = some "a"
    decide +kernel
  have ha : (run boxes).InFile ⟨"b.cs"⟩ "a" :=
    ⟨boxNode .classType "a", by decide +kernel, by decide⟩
  have hb : (run boxes).InFile ⟨"b.cs"⟩ "b" :=
    ⟨boxNode .classType "b", by decide +kernel, by decide⟩
  have htop : (run boxes).topIn ⟨"b.cs"⟩ = [] := by decide +kernel
  have htotal : ((run boxes).outlined ⟨"b.cs"⟩).total = 3 := by decide +kernel
  have hroots : ((run boxes).outlined ⟨"b.cs"⟩).roots = [] := by
    rw [outlined, htop, sortBy, List.mergeSort_nil]
    rfl
  refine ⟨⟨by decide, ha, hb, .single hab, .single hba⟩, _,
    fileOutline_eq (coherent_run boxes) ⟨"a", ha⟩, htotal, hroots, ?_⟩
  rw [htotal, hroots]
  decide

end Store

end CodeGraph

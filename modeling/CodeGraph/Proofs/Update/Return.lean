import CodeGraph.Proofs.Path
import CodeGraph.Proofs.Update.Edited
import CodeGraph.Proofs.Update.Stale
import Mathlib.Logic.Relation

/-!
# A file that is deleted and comes back

When a file is deleted, the edges of other files into it go. The cascade analyzes the files again
that refer to it, and those that refer to these, so their edges are found again and wait for the
file to come back. A containment is no reference: a file that only contains declarations of the
deleted one is not analyzed again, and its edge is gone for good.

* `Contents.without`: the files without one of them.
* `Reader.Reaches`: the cascade of a change leads from one file to another.
* `Reader.Forgets`: an edge that does not come back.
* `Edit.Finished.mem_iff_reaches`: the visited files are those that the cascade leads to.
* `edge?_deletion`, `edge?_return`: the edges after each of the two batches.
* `Edit.finished_single`: a batch of one change, by whatever path its file is named.
* **`Reader.returned_iff`**: the graph after the file came back.
* `Reader.returned_forgets`: two graphs that lost something.
-/

namespace CodeGraph

open Std

/-! ## The files without one of them -/

/-- The files without one of them. -/
def Contents.without {γ : Type} (files : Contents γ) (x : Path) : Contents γ :=
  Function.update files x none

namespace Reader

variable {γ : Type} {read : Reader γ} {files : Contents γ} {x f : Path}

theorem find_without (read : Reader γ) (files : Contents γ) (x f : Path) :
    read.find f (files.without x f) = if f = x then {} else read.find f (files f) := by
  unfold Contents.without
  by_cases hf : f = x
  · subst hf
    rw [Function.update_self, if_pos rfl]
    rfl
  · rw [Function.update_of_ne hf, if_neg hf]

theorem declares_without {t : NodeId} :
    read.Declares (files.without x) f t ↔ f ≠ x ∧ read.Declares files f t := by
  rw [Declares, find_without, Declares]
  by_cases hf : f = x <;> simp [hf]

theorem refers_without {t : NodeId} :
    read.Refers (files.without x) f t ↔ f ≠ x ∧ read.Refers files f t := by
  rw [Refers, find_without, Refers]
  by_cases hf : f = x <;> simp [hf]

theorem edge?_without {i : EdgeId} {e : Edge} :
    read.edge? (files.without x) f i = some e ↔ f ≠ x ∧ read.edge? files f i = some e := by
  rw [edge?, find_without, edge?]
  by_cases hf : f = x <;> simp [hf]

theorem Apart.without (h : read.Apart files) (x : Path) : read.Apart (files.without x) := by
  have hnodes : ∀ {f n}, n ∈ (read.find f (files.without x f)).nodes →
      n ∈ (read.find f (files f)).nodes := by
    intro f n hn
    rw [find_without] at hn
    by_cases hf : f = x <;> simp_all
  have hedges : ∀ {f e}, e ∈ (read.find f (files.without x f)).edges →
      f ≠ x ∧ e ∈ (read.find f (files f)).edges := by
    intro f e he
    rw [find_without] at he
    by_cases hf : f = x <;> simp_all
  refine ⟨fun hn => h.node_file (hnodes hn), fun he => h.edge_file (hedges he).2,
    fun he => ?_, fun hf hg => ?_, fun he he' => h.edges (hedges he).2 (hedges he').2⟩
  · exact declares_without.2 ⟨(hedges he).1, h.edge_source (hedges he).2⟩
  · exact h.declares (declares_without.1 hf).2 (declares_without.1 hg).2

/-- The cascade of a change of the file `x` leads to the file `f`: it refers to a declaration of
`x`, or of a file that the cascade leads to. -/
def Reaches (read : Reader γ) (files : Contents γ) (x f : Path) : Prop :=
  Relation.ReflTransGen (fun g f => ∃ t, read.Declares files g t ∧ read.Refers files f t) x f

/-- A containment of a file that the cascade does not lead to, into a declaration of the file
`x`. -/
def Forgets (read : Reader γ) (files : Contents γ) (x : Path) (e : Edge) : Prop :=
  e.kind = .contains ∧ read.Declares files x e.target ∧
    ∃ f, read.edge? files f e.id = some e ∧ ¬ read.Reaches files x f

end Reader

/-! ## The visited files -/

namespace Edit.Finished

variable {γ : Type} {d : Edit γ} {start : Store} {past : List Path} {q : Project} {x : Path}
  {files : Contents γ} (h : d.Finished true start [x] past q)
include h

omit files in
theorem head_mem : ∃ rest, past = x :: rest ∧ x ∉ rest := by
  obtain ⟨rest, rfl⟩ := h.leads
  exact ⟨rest, rfl, (List.nodup_cons.1 h.nodup).1⟩

/-- **The cascade visits the files that it leads to**, and no others, if only one file is edited. -/
theorem mem_iff_reaches (htouches : ∀ g t, d.Touches g t ↔ d.read.Declares files g t)
    (hrefers : ∀ f t, d.read.Refers d.old f t ∨ d.read.Refers d.new f t → d.read.Refers files f t)
    (hother : ∀ f t, f ≠ x → d.read.Refers files f t → d.read.Refers d.new f t) {f : Path} :
    f ∈ past ↔ d.read.Reaches files x f := by
  obtain ⟨rest, hpast, -⟩ := h.head_mem
  constructor
  · -- Whoever was pulled in was pulled in by a file visited earlier.
    have hsplit : ∀ (n : Nat) {pre post : List Path} {f : Path}, pre.length = n →
        past = pre ++ f :: post → d.read.Reaches files x f := by
      intro n
      induction n using Nat.strong_induction_on with
      | _ n ih =>
        rintro pre post f rfl heq
        by_cases hf : f = x
        · subst hf
          exact .refl
        · obtain ⟨g, hg, t, hgt, hft⟩ := h.caused heq (by simpa using hf)
          obtain ⟨pre', post', rfl⟩ := List.append_of_mem hg
          refine .tail (ih pre'.length (by simp) rfl (by simpa using heq)) ?_
          exact ⟨t, (htouches g t).1 hgt, hrefers f t hft⟩
    intro hf
    obtain ⟨pre, post, heq⟩ := List.append_of_mem hf
    exact hsplit pre.length rfl heq
  · intro hreaches
    induction hreaches with
    | refl => exact hpast ▸ List.mem_cons_self
    | @tail g f _ hstep ih =>
      obtain ⟨t, hg, hf⟩ := hstep
      by_cases hfx : f = x
      · exact hpast ▸ hfx ▸ List.mem_cons_self
      · exact h.closed rfl ih ((htouches g t).2 hg) (hother f t hfx hf)

end Edit.Finished

section Batches

variable {γ : Type} {read : Reader γ} {files : Contents γ} (ha : read.Apart files) {x : Path}
  {start : Store} {past : List Path} {q : Project}
include ha

theorem apart_deletion : (Edit.mk read files (files.without x)).Apart := ⟨ha, ha.without x⟩

theorem apart_return : (Edit.mk read (files.without x) files).Apart := ⟨ha.without x, ha⟩

omit ha in
theorem mem_deletion (h : (Edit.mk read files (files.without x)).Finished true start [x] past q)
    {f : Path} : f ∈ past ↔ read.Reaches files x f := by
  refine h.mem_iff_reaches ?_ ?_ ?_
  · intro g t
    rw [Edit.Touches, Reader.declares_without]
    exact or_iff_left_of_imp And.right
  · intro f t
    rw [Reader.refers_without]
    exact fun hf => hf.elim id And.right
  · exact fun f t hf hrefers => Reader.refers_without.2 ⟨hf, hrefers⟩

omit ha in
theorem mem_return (h : (Edit.mk read (files.without x) files).Finished true start [x] past q)
    {f : Path} : f ∈ past ↔ read.Reaches files x f := by
  refine h.mem_iff_reaches ?_ ?_ ?_
  · intro g t
    rw [Edit.Touches, Reader.declares_without]
    exact or_iff_right_of_imp And.right
  · intro f t
    rw [Reader.refers_without]
    exact fun hf => hf.elim And.right id
  · exact fun f t _ hrefers => hrefers

/-- The edges after the file was deleted: those into its declarations are left only where the
cascade led. -/
theorem edge?_deletion (h : (Edit.mk read files (files.without x)).Finished true start [x] past q)
    (hstart : ∀ {i e}, start.edge? i = some e ↔ ∃ f, read.edge? files f i = some e) {i : EdgeId}
    {e : Edge} : q.store.edge? i = some e ↔ ∃ f, f ≠ x ∧ read.edge? files f i = some e ∧
      (read.Declares files x e.target → read.Reaches files x f) := by
  obtain ⟨rest, hpast, hx⟩ := h.head_mem
  -- Only the deleted file drops declarations, and it was visited first.
  have hdrops : ∀ {pre a t}, (Edit.mk read files (files.without x)).Drops pre a t → a = x := by
    rintro pre a t ⟨⟨hold, -⟩, hgone⟩
    by_contra hne
    exact hgone (Reader.declares_without.2 ⟨hne, hold⟩)
  have hsevers : ∀ f, ¬ (Edit.mk read files (files.without x)).Severs past f e.target := by
    rintro f ⟨pre, a, post, heq, hf, hd⟩
    obtain rfl := hdrops hd
    cases pre with
    | nil => simp at hf
    | cons y pre =>
      rw [hpast] at heq
      exact hx ((List.cons.inj heq).2 ▸ by simp)
  have hcuts : (Edit.mk read files (files.without x)).Cuts past e.target ↔
      read.Declares files x e.target := by
    constructor
    · rintro ⟨pre, a, post, -, hd⟩
      exact hdrops hd ▸ hd.1.1
    · intro hd
      refine ⟨[], x, rest, hpast, ⟨hd, by simp⟩, fun hnew => ?_⟩
      exact (Reader.declares_without.1 hnew).1 rfl
  have hoverwrites : ∀ f, read.edge? files f i = some e →
      ¬ (Edit.mk read files (files.without x)).Overwrites start past f i := by
    rintro f he ⟨pre, a, post, -, rfl, g, e', -, hne, hold, -⟩
    exact hne (ha.edge?_apart hold he)
  rw [h.edge?_iff (apart_deletion ha)]
  refine exists_congr fun f => ?_
  rw [Reader.edge?_without, and_assoc]
  refine and_congr_right fun _ => and_congr_right fun he => ?_
  simp only [mem_deletion h, hsevers, hoverwrites f he, hcuts, hstart.2 ⟨f, he⟩]
  tauto

/-- The edges after the file came back: nothing was lost, and what the cascade leads to was found
again. -/
theorem edge?_return (h : (Edit.mk read (files.without x) files).Finished true start [x] past q)
    {i : EdgeId} {e : Edge} : q.store.edge? i = some e ↔ ∃ f, read.edge? files f i = some e ∧
      (read.Reaches files x f ∨ start.edge? i = some e) := by
  have hdrops : ∀ pre a t, ¬ (Edit.mk read (files.without x) files).Drops pre a t := by
    rintro pre a t ⟨⟨hold, -⟩, hgone⟩
    exact hgone (Reader.declares_without.1 hold).2
  have hsevers : ∀ f, ¬ (Edit.mk read (files.without x) files).Severs past f e.target := by
    rintro f ⟨pre, a, post, -, -, hd⟩
    exact hdrops pre a _ hd
  have hcuts : ¬ (Edit.mk read (files.without x) files).Cuts past e.target := by
    rintro ⟨pre, a, post, -, hd⟩
    exact hdrops pre a _ hd
  have hoverwrites : ∀ f, read.edge? files f i = some e →
      ¬ (Edit.mk read (files.without x) files).Overwrites start past f i := by
    rintro f he ⟨pre, a, post, -, rfl, g, e', -, hne, hold, -⟩
    exact hne (ha.edge?_apart (Reader.edge?_without.1 hold).2 he)
  rw [h.edge?_iff (apart_return ha)]
  refine exists_congr fun f => and_congr_right fun he => ?_
  simp only [mem_return h, hsevers, hoverwrites f he, hcuts]
  tauto

theorem edge?_deletion_return {past' : List Path} {q' : Project}
    (h : (Edit.mk read files (files.without x)).Finished true start [x] past q)
    (h' : (Edit.mk read (files.without x) files).Finished true q.store [x] past' q')
    (hstart : ∀ {i e}, start.edge? i = some e ↔ ∃ f, read.edge? files f i = some e) {e : Edge} :
    q'.store.edge? e.id = some e ↔ start.edge? e.id = some e ∧ ¬ read.Forgets files x e := by
  rw [edge?_return ha h', edge?_deletion ha h hstart, hstart]
  constructor
  · rintro ⟨f, he, hfound⟩
    refine ⟨⟨f, he⟩, fun ⟨_, hd, g, hg, hunreached⟩ => ?_⟩
    obtain rfl := ha.edge?_apart he hg
    rcases hfound with hreaches | ⟨g, -, hg, hreaches⟩
    · exact hunreached hreaches
    · exact hunreached (ha.edge?_apart he hg ▸ hreaches hd)
  · rintro ⟨⟨f, he⟩, hkept⟩
    refine ⟨f, he, ?_⟩
    by_cases hreaches : read.Reaches files x f
    · exact .inl hreaches
    · refine .inr ⟨f, fun hf => hreaches (hf ▸ .refl), he, fun hd => ?_⟩
      -- Any other edge than a containment is a reference, so the cascade leads to its file.
      by_contra
      refine hkept ⟨?_, hd, f, he, hreaches⟩
      by_contra hkind
      exact hreaches (.single ⟨e.target, hd, Reader.refers_of_edge? he hkind⟩)

end Batches

/-! ## Paths as they are given -/

theorem ProjectRoot.tidy_relative (root : ProjectRoot) (p : Path) : root.Tidy (root.relative p) :=
  root.relative_relative p

namespace Project

theorem normalizeChange_normalizeChange (root : ProjectRoot) (c : Change) :
    normalizeChange root (normalizeChange root c) = normalizeChange root c := by
  obtain ⟨path, kind⟩ := c
  cases kind <;>
    simp [normalizeChange, Change.renamed, root.relative_relative]

theorem processChanges_normalize (w : World) (p : Project) (changes : List Change)
    (cascade : Bool) : p.processChanges w (changes.map (normalizeChange p.root)) cascade =
      p.processChanges w changes cascade := by
  have hbegin : p.begin (changes.map (normalizeChange p.root)) cascade =
      p.begin changes cascade := by
    simp only [begin, List.map_map, Function.comp_def, normalizeChange_normalizeChange]
  rw [processChanges, hbegin, processChanges]

theorem indexFiles_relative (w : World) (p : Project) (paths : List Path) :
    p.indexFiles w (paths.map p.root.relative) = p.indexFiles w paths := by
  rw [indexFiles, indexFiles, ← processChanges_normalize w p (paths.map _), List.map_map,
    List.map_map]
  rfl

end Project

/-! ## The whole course -/

/-- **A batch of one change takes in the edit of one file**, by whatever path the file is named. -/
theorem Edit.finished_single {γ : Type} {d : Edit γ} (ha : d.Apart) {w : World} (hw : w.Obliging)
    (hreads : w.Reads d.read d.new) {p : Project} (hp : Drawn d.read d.old p) {c : Change}
    (hsource : c.source? = none) {f : Path} (hf : p.root.relative c.path = f)
    (hdeletion : c.isDeletion = true ↔ d.new f = none) (hother : ∀ g, g ≠ f → d.old g = d.new g) :
    (∃ past, d.Finished true p.store [f] past (p.processChanges w [c] true).1) ∧
      (p.processChanges w [c] true).1.root = p.root := by
  have hplain : Project.normalizeChange p.root c = ⟨f, c.kind⟩ := by
    obtain ⟨path, kind⟩ := c
    subst hf
    cases kind with
    | renamed source => cases hsource
    | _ => rfl
  have htidy : p.root.Tidy f := hf ▸ p.root.tidy_relative c.path
  have htells : Change.Tells p.root d.new ⟨f, c.kind⟩ := ⟨hsource, htidy, hdeletion⟩
  have hpresent : ∀ g, d.new g ≠ none → p.root.Tidy g := by
    intro g hg
    by_cases hgf : g = f
    · exact hgf ▸ htidy
    · exact hp.tidy (hother g hgf ▸ hg)
  have hnamed : ∀ g, d.old g ≠ d.new g → ∃ c' ∈ [⟨f, c.kind⟩], Change.path c' = g := by
    intro g hg
    refine ⟨_, List.mem_singleton_self _, ?_⟩
    by_contra hgf
    exact hg (hother g (Ne.symm hgf))
  obtain ⟨h, hroot⟩ := Edit.finished_processChanges ha hw hreads hp hpresent
    (List.forall_mem_singleton.2 htells) hnamed true
  rw [settle_eq_self (List.pairwise_singleton _ _)] at h
  rw [← Project.processChanges_normalize, List.map_singleton, hplain]
  exact ⟨⟨_, h⟩, hroot⟩

theorem finished_deletion_return {γ : Type} {read : Reader γ} {files : Contents γ}
    (ha : read.Apart files) {w w' : World} (hw : w.Obliging) (hreads : w.Reads read files)
    (hw' : w'.Obliging) (hreads' : w'.Reads read files) {p : Project} (hp : Drawn read files p)
    {x x' : Path} (hx : p.root.relative x = x') (hx' : files x' ≠ none) {deleted returned : Project}
    (hdeleted : (p.processChanges w [.deleted x] true).1 = deleted)
    (hreturned : (deleted.processChanges w' [.created x] true).1 = returned) :
    (∃ past, (Edit.mk read files (files.without x')).Finished true p.store [x'] past deleted) ∧
      ∃ past, (Edit.mk read (files.without x') files).Finished true deleted.store [x'] past
        returned := by
  have hgone : files.without x' x' = none := Function.update_self ..
  have hother : ∀ f, f ≠ x' → files f = files.without x' f := fun f hf =>
    (Function.update_of_ne hf ..).symm
  have hremains : w.Reads read (files.without x') := by
    intro n r c hc
    by_cases hr : r.path = x'
    · rw [hr, hgone] at hc
      cases hc
    · exact hreads n r c ((hother _ hr).trans hc)
  obtain ⟨⟨past, h⟩, hroot⟩ := Edit.finished_single (d := ⟨read, files, files.without x'⟩)
    (apart_deletion ha) hw hremains hp (c := .deleted x) rfl hx (iff_of_true rfl hgone) hother
  rw [hdeleted] at h hroot
  obtain ⟨⟨past', h'⟩, -⟩ := Edit.finished_single (d := ⟨read, files.without x', files⟩)
    (apart_return ha) hw' hreads' (h.drawn (apart_deletion ha)) (c := .created x) rfl
    (hroot.symm ▸ hx) (iff_of_false Bool.false_ne_true hx') fun f hf => (hother f hf).symm
  rw [hreturned] at h'
  exact ⟨⟨past, h⟩, past', h'⟩

theorem allNodes_return {γ : Type} {read : Reader γ} {files : Contents γ}
    (ha : read.Apart files) {x : Path} {start : Store} {past : List Path} {p q : Project}
    (hp : Drawn read files p)
    (h : (Edit.mk read (files.without x) files).Finished true start [x] past q) :
    q.store.allNodes = p.store.allNodes := by
  refine Store.eq_of_ascending (k := Node.id)
    (List.pairwise_map.1 (Store.ascending_values h.consistent.coherent.node_id))
    (List.pairwise_map.1 (Store.ascending_values hp.consistent.coherent.node_id)) fun n => ?_
  rw [Store.mem_allNodes h.consistent.coherent, Store.mem_allNodes hp.consistent.coherent,
    h.node?_iff (apart_return ha), hp.node?]

theorem Store.snapshot_eq_iff {s t : Store} (hs : s.Coherent) (ht : t.Coherent)
    (hnodes : s.allNodes = t.allNodes) {Lost : Edge → Prop}
    (hedges : ∀ e, e ∈ s.allEdges ↔ e ∈ t.allEdges ∧ ¬ Lost e) :
    s.snapshot = t.snapshot ↔ ∀ e ∈ t.allEdges, ¬ Lost e := by
  constructor
  · intro hsame e he
    have hsame : s.allEdges = t.allEdges := congrArg Snapshot.edges hsame
    exact ((hedges e).1 (hsame ▸ he)).2
  · intro hkept
    have hsame : s.allEdges = t.allEdges :=
      eq_of_ascending (k := Edge.id) (List.pairwise_map.1 (ascending_values hs.edge_id))
        (List.pairwise_map.1 (ascending_values ht.edge_id))
        fun e => (hedges e).trans (and_iff_left_of_imp (hkept e))
    rw [snapshot, hnodes, hsame, snapshot]

/-- **A file that is deleted and comes back.** Some files are indexed, one of them is deleted, and
then it comes back as it was. All declarations are there again, and all edges, but for those
containments that are forgotten. So the graph is what it was exactly if there are none. -/
theorem Reader.returned_iff {γ : Type} {read : Reader γ} {files : Contents γ}
    (ha : read.Apart files) {p : Project} (hp : p.Fresh) {w : Fin 3 → World}
    (hw : ∀ k, (w k).Obliging) (hreads : ∀ k, (w k).Reads read files) {paths : List Path}
    (hpaths : ∀ f, f ∈ paths.map p.root.relative ↔ files f ≠ none) {x : Path} (hx : x ∈ paths) :
    let indexed := (p.indexFiles (w 0) paths).1
    let deleted := (indexed.processChanges (w 1) [.deleted x] true).1
    let returned := (deleted.processChanges (w 2) [.created x] true).1
    returned.store.allNodes = indexed.store.allNodes ∧
    (∀ e, e ∈ returned.store.allEdges ↔
      e ∈ indexed.store.allEdges ∧ ¬ read.Forgets files (p.root.relative x) e) ∧
    (returned.store.snapshot = indexed.store.snapshot ↔
      ∀ e, ¬ read.Forgets files (p.root.relative x) e) := by
  have htidy : ∀ f ∈ paths.map p.root.relative, p.root.Tidy f := by
    intro f hf
    obtain ⟨g, -, rfl⟩ := List.mem_map.1 hf
    exact p.root.tidy_relative g
  obtain ⟨hindexed, hstart, hroot⟩ := drawn_indexFiles ha (hw 0) (hreads 0) hp hpaths htidy
  rw [Project.indexFiles_relative] at hindexed hstart hroot
  have hx' : files (p.root.relative x) ≠ none := (hpaths _).1 (List.mem_map_of_mem hx)
  dsimp only
  generalize hxs : p.root.relative x = x' at hx' ⊢
  generalize (p.indexFiles (w 0) paths).1 = indexed at hindexed hstart hroot ⊢
  generalize hdeleted : (indexed.processChanges (w 1) [.deleted x] true).1 = deleted
  generalize hreturned : (deleted.processChanges (w 2) [.created x] true).1 = returned
  obtain ⟨⟨past, h⟩, past', h'⟩ := finished_deletion_return ha (hw 1) (hreads 1) (hw 2) (hreads 2)
    hindexed (hroot ▸ hxs) hx' hdeleted hreturned
  have hnodes := allNodes_return ha hindexed h'
  have hedges : ∀ e, e ∈ returned.store.allEdges ↔
      e ∈ indexed.store.allEdges ∧ ¬ read.Forgets files x' e := by
    intro e
    rw [Store.mem_allEdges h'.consistent.coherent,
      Store.mem_allEdges hindexed.consistent.coherent, edge?_deletion_return ha h h' hstart]
  refine ⟨hnodes, hedges, ?_⟩
  rw [Store.snapshot_eq_iff h'.consistent.coherent hindexed.consistent.coherent hnodes hedges]
  refine forall_congr' fun e => ⟨fun hkept hforgets => ?_, fun hkept _ => hkept⟩
  -- What is forgotten was found when the files were indexed.
  obtain ⟨-, -, f, he, -⟩ := id hforgets
  exact hkept ((Store.mem_allEdges hindexed.consistent.coherent).2 (hstart.2 ⟨f, he⟩)) hforgets

/-! ## A file that another leads to -/

/-- Two files, with an edge from `b.cs` to `a.cs`. -/
def linkedPair (kind : EdgeKind) : Contents Output := fun f =>
  if f = ⟨"a.cs"⟩ then some { nodes := [.ofFile f] }
  else if f = ⟨"b.cs"⟩ then some
    { nodes := [.ofFile f], edges := [{ Edge.ofCall f ⟨"a.cs"⟩ with kind }] }
  else none

/-- Two files, of which `b.cs` has a declaration that carries the other file. -/
def strayedPair : Contents Output := fun f =>
  if f = ⟨"a.cs"⟩ then some { nodes := [.ofFile f] }
  else if f = ⟨"b.cs"⟩ then some { nodes := [.ofFileAt f ⟨"a.cs"⟩] }
  else none

/-- A project in which both files were indexed. -/
def Project.pairIndexed (files : Contents Output) : Project :=
  (Project.unread.indexFiles (Reader.verbatim.world files) [⟨"a.cs"⟩, ⟨"b.cs"⟩]).1

/-- The project after `a.cs` was deleted and came back. -/
def Project.pairReturned (files : Contents Output) : Project :=
  (((Project.pairIndexed files).processChanges (Reader.verbatim.world files)
    [.deleted ⟨"a.cs"⟩] true).1.processChanges (Reader.verbatim.world files)
    [.created ⟨"a.cs"⟩] true).1

theorem mem_of_linkedPair {kind : EdgeKind} {f : Path} (h : linkedPair kind f ≠ none) :
    f ∈ [⟨"a.cs"⟩, ⟨"b.cs"⟩] := by
  unfold linkedPair at h
  grind

theorem apart_linkedPair {kind : EdgeKind} (hkind : kind = .calls ∨ kind = .contains) :
    Reader.verbatim.Apart (linkedPair kind) := by
  refine Reader.apart_of_forall_mem (fun _ => mem_of_linkedPair) ?_ ?_ <;>
    rcases hkind with rfl | rfl <;> decide

/-- A call comes back. -/
theorem Reader.returned_iff_call :
    (Project.pairIndexed (linkedPair .calls)).store.allEdges.map Edge.id = ["b.cs"] ∧
    (Project.pairReturned (linkedPair .calls)).store.snapshot =
      (Project.pairIndexed (linkedPair .calls)).store.snapshot := by
  have hpaths : ∀ f, f ∈ [⟨"a.cs"⟩, ⟨"b.cs"⟩].map Project.unread.root.relative ↔
      linkedPair .calls f ≠ none := by
    have hrelative : [⟨"a.cs"⟩, ⟨"b.cs"⟩].map Project.unread.root.relative =
        [⟨"a.cs"⟩, ⟨"b.cs"⟩] := by decide +kernel
    have hsome : ∀ f ∈ [⟨"a.cs"⟩, ⟨"b.cs"⟩], linkedPair .calls f ≠ none := by decide +kernel
    rw [hrelative]
    exact fun f => ⟨hsome f, mem_of_linkedPair⟩
  have h := Reader.returned_iff (apart_linkedPair (.inl rfl)) Project.fresh_unread
    (w := fun _ => Reader.verbatim.world (linkedPair .calls)) (fun _ _ _ => rfl)
    (fun _ => Reader.reads_world _ _) hpaths (x := ⟨"a.cs"⟩) (by decide)
  refine ⟨by decide +kernel, h.2.2.2 ?_⟩
  rintro e ⟨hkind, -, f, he, -⟩
  have hcalls : ∀ f ∈ [⟨"a.cs"⟩, ⟨"b.cs"⟩],
      ∀ e ∈ (Reader.verbatim.find f (linkedPair .calls f)).edges, e.kind ≠ .contains := by
    decide +kernel
  obtain ⟨e', he', rfl⟩ := List.mem_map.1 (Output.edge?_eq_some he).1
  rw [Project.ownEdge_kind] at hkind
  exact hcalls f (mem_of_linkedPair (Reader.edge?_ne_none he)) e' he' hkind

/-- **A containment does not come back**, and neither does a declaration of another file that
carries the file at hand. -/
theorem Reader.returned_forgets :
    Reader.verbatim.Apart (linkedPair .contains) ∧
    (Project.pairIndexed (linkedPair .contains)).store.allEdges.map Edge.id = ["b.cs"] ∧
    (Project.pairReturned (linkedPair .contains)).store.allEdges = [] ∧
    (Project.pairIndexed strayedPair).store.allNodes.map Node.id = ["a.cs", "b.cs"] ∧
    (Project.pairReturned strayedPair).store.allNodes.map Node.id = ["a.cs"] :=
  ⟨apart_linkedPair (.inr rfl), by decide +kernel, by decide +kernel, by decide +kernel,
    by decide +kernel⟩

end CodeGraph

import CodeGraph.Proofs.Update.Edited
import CodeGraph.Proofs.Update.Stale

/-!
# Declarations that move between files

A batch takes in an edit in which declarations may have moved from file to file. The graph then
holds all declarations of the files as they are now. An edge is missing in two cases, and both
depend on the order of the batch:

* its file is visited first, then the old home of its target, and last the new one;
* its file is visited before one that held the same edge, and has its target before and after.

* `Edit.Severed`, `Edit.Overwritten`: the two cases.
* **`Edit.relocated_iff`**: the graph after the batch.
* `Edit.relocated_severed`: an order in which an edge is lost, and one in which it is not.
-/

namespace CodeGraph

open scoped List

/-! ## Orders -/

theorem pair_sublist_iff {l : List Path} {a b : Path} :
    [a, b] <+ l ↔ ∃ pre post, l = pre ++ a :: post ∧ b ∈ post := by
  rw [List.cons_sublist_iff]
  simp only [List.singleton_sublist]
  constructor
  · rintro ⟨r, post, rfl, ha, hb⟩
    obtain ⟨pre, mid, rfl⟩ := List.append_of_mem ha
    exact ⟨pre, mid ++ post, by simp, List.mem_append_right _ hb⟩
  · rintro ⟨pre, post, rfl, hb⟩
    exact ⟨pre ++ [a], post, by simp, by simp, hb⟩

theorem triple_sublist_iff {l : List Path} {a b c : Path} :
    [a, b, c] <+ l ↔ ∃ pre post, l = pre ++ b :: post ∧ a ∈ pre ∧ c ∈ post := by
  rw [List.cons_sublist_iff]
  simp only [pair_sublist_iff]
  constructor
  · rintro ⟨r, _, rfl, ha, pre, post, rfl, hc⟩
    exact ⟨r ++ pre, post, by simp, List.mem_append_left _ ha, hc⟩
  · rintro ⟨pre, post, rfl, ha, hc⟩
    exact ⟨pre, b :: post, rfl, ha, [], post, rfl, hc⟩

theorem sublist_of_leads {order past l : List Path} (hleads : order <+: past) (hnodup : past.Nodup)
    {b : Path} (hb : b ∈ order) (h : l ++ [b] <+ past) : l ++ [b] <+ order := by
  obtain ⟨later, rfl⟩ := hleads
  obtain ⟨l₁, l₂, hl, h₁, h₂⟩ := List.sublist_append_iff.1 h
  rcases List.eq_nil_or_concat l₂ with rfl | ⟨l₂, c, rfl⟩
  · rw [hl, List.append_nil]
    exact h₁
  · rw [List.concat_eq_append, ← List.append_assoc] at hl
    obtain rfl := List.singleton_inj.1 (List.append_inj' hl rfl).2
    have hlater : b ∈ later := h₂.subset (by simp)
    exact absurd rfl ((List.nodup_append.1 hnodup).2.2 b hb b hlater)

namespace Edit

variable {γ : Type} (d : Edit γ)

/-- The file `f` is visited, then the old home of a declaration, and then its new one. -/
def Severed (order : List Path) (f : Path) (t : NodeId) : Prop :=
  ∃ a b, d.read.Declares d.old a t ∧ d.read.Declares d.new b t ∧ [f, a, b] <+ order

/-- The file `f` is visited before one that held an edge of the same identifier, whose target the
file `f` has before and after. -/
def Overwritten (order : List Path) (f : Path) (i : EdgeId) : Prop :=
  ∃ g e, d.read.edge? d.old g i = some e ∧ d.read.Declares d.old f e.target ∧
    d.read.Declares d.new f e.target ∧ [f, g] <+ order

namespace Finished

variable {d} {cascade : Bool} {start : Store} {order past : List Path} {q : Project} (ha : d.Apart)
  (h : d.Finished cascade start order past q) (horder : ∀ {f}, f ∉ order → d.old f = d.new f)
include ha h horder

theorem severs_iff {f b : Path} {t : NodeId} (hb : d.read.Declares d.new b t) :
    d.Severs past f t ↔ d.Severed order f t := by
  constructor
  · rintro ⟨pre, a, post, hpast, hf, ⟨hold, hfree⟩, hgone⟩
    have hmem : b ∈ order := by
      by_contra hnot
      have hsame : d.read.Declares d.old b t := by
        rw [Reader.Declares, horder hnot]
        exact hb
      exact hgone (ha.old.declares hsame hold ▸ hb)
    have hpost : b ∈ post := by
      have hpast' : b ∈ pre ++ a :: post := hpast ▸ h.leads.subset hmem
      rcases List.mem_append.1 hpast' with hpre | hpost
      · exact absurd hb (hfree b hpre)
      · rcases List.mem_cons.1 hpost with rfl | hpost
        · exact absurd hb hgone
        · exact hpost
    have hsub : [f, a] ++ [b] <+ past := triple_sublist_iff.2 ⟨pre, post, hpast, hf, hpost⟩
    exact ⟨a, b, hold, hb, sublist_of_leads h.leads h.nodup hmem hsub⟩
  · rintro ⟨a, b', hold, hb', hsub⟩
    obtain rfl := ha.new.declares hb hb'
    obtain ⟨pre, post, hpast, hf, hpost⟩ := triple_sublist_iff.1 (hsub.trans h.leads.sublist)
    have hnodup := hpast ▸ h.nodup
    refine ⟨pre, a, post, hpast, hf, ⟨hold, fun g hg hd => ?_⟩, fun hd => ?_⟩
    · obtain rfl := ha.new.declares hb hd
      exact (List.nodup_append.1 hnodup).2.2 b hg b (List.mem_cons_of_mem _ hpost) rfl
    · obtain rfl := ha.new.declares hb hd
      exact (List.nodup_cons.1 (List.nodup_append.1 hnodup).2.1).1 hpost

theorem overwrites_iff (hstart : ∀ {f i e}, d.read.edge? d.old f i = some e →
      start.edge? i = some e) {f : Path} {i : EdgeId} {e : Edge}
    (he : d.read.edge? d.new f i = some e) :
    d.Overwrites start past f i ↔ d.Overwritten order f i := by
  constructor
  · rintro ⟨pre, _, post, hpast, rfl, g, e', hg, hne, hold, -, hdold, hdnew⟩
    have hmem : g ∈ order := by
      by_contra hnot
      have hsame : d.read.edge? d.new g i = some e' := by
        rw [Reader.edge?, ← horder hnot]
        exact hold
      exact hne (ha.new.edge?_apart hsame he)
    have hpost : g ∈ post := by
      have hpast' := hpast ▸ h.leads.subset hmem
      exact (List.mem_cons.1 ((List.mem_append.1 hpast').resolve_left hg)).resolve_left hne
    have hsub := pair_sublist_iff.2 ⟨pre, post, hpast, hpost⟩
    exact ⟨g, e', hold, hdold, hdnew, sublist_of_leads (l := [_]) h.leads h.nodup hmem hsub⟩
  · rintro ⟨g, e', hold, hdold, hdnew, hsub⟩
    obtain ⟨pre, post, hpast, hpost⟩ := pair_sublist_iff.1 (hsub.trans h.leads.sublist)
    have hnodup := List.nodup_append.1 (hpast ▸ h.nodup)
    refine ⟨pre, f, post, hpast, rfl, g, e', fun hg => ?_, ?_, hold, hstart hold, hdold, hdnew⟩
    · exact hnodup.2.2 g hg g (List.mem_cons_of_mem _ hpost) rfl
    · rintro rfl
      exact (List.nodup_cons.1 hnodup.2.1).1 hpost

omit horder in
/-- Nothing that a file refers to is taken out of the graph unless the file is visited. -/
theorem not_cuts (hcontains : ∀ {f e}, e ∈ (d.read.find f (d.new f)).edges → e.kind = .contains →
      d.read.Declares d.new f e.target) (hcascade : cascade = true) {f : Path} {i : EdgeId}
    {e : Edge} (hf : f ∉ past) (he : d.read.edge? d.new f i = some e) :
    ¬ d.Cuts past e.target := by
  rintro ⟨pre, a, post, hpast, ⟨hold, -⟩, -⟩
  have hmem : a ∈ past := hpast ▸ List.mem_append_right _ List.mem_cons_self
  by_cases hkind : e.kind = .contains
  · -- A containment stays within its file, so its file is the one that was visited.
    obtain ⟨e', he', rfl⟩ := List.mem_map.1 (Output.edge?_eq_some he).1
    rw [Project.ownEdge_kind] at hkind
    have hown := hcontains he' hkind
    rw [Reader.Declares, ← h.unvisited hf] at hown
    rw [Project.ownEdge_target] at hold
    exact hf (ha.old.declares hown hold ▸ hmem)
  · exact hf (h.closed hcascade hmem (.inl hold) (Reader.refers_of_edge? he hkind))

end Finished

theorem mem_order {root : ProjectRoot} {changes : List Change}
    (htidy : ∀ f, d.old f ≠ none ∨ d.new f ≠ none → root.Tidy f)
    (htells : ∀ c ∈ changes, c.Tells root d.new)
    (hnamed : ∀ f, d.old f ≠ d.new f → ∃ c ∈ changes, c.path = f) {f : Path}
    (hf : f ∉ (settle changes).map Change.path) : d.old f = d.new f := by
  by_contra hne
  have hplain : ∀ c ∈ changes, c.source? = none := fun c hc => (htells c hc).source?
  obtain ⟨c, hc, rfl⟩ := hnamed f hne
  obtain ⟨c', hc', hparts⟩ := exists_settle_of_plain hplain hc
  have hmem := List.mem_of_find?_eq_some ((mem_settle_of_plain hplain).1 hc')
  have htidy' := (htells c' (List.mem_reverse.1 hmem)).tidy
  exact hf (List.mem_map.2 ⟨c', hc', htidy'.eq (htidy _ (ne_none_of_ne hne)) hparts⟩)

/-- **The graph after an edit in which declarations may have moved.** From the graph of the old
files, one batch with cascade that names every file that was edited leads to exactly the new
declarations. Of the new edges with both ends, those are missing whose file is visited before the
old home of the target, and that before the new one, and those whose place an old edge has taken. -/
theorem relocated_iff {γ : Type} {d : Edit γ} (ha : d.Apart)
    (hcontains : ∀ {f e}, e ∈ (d.read.find f (d.new f)).edges → e.kind = .contains →
      d.read.Declares d.new f e.target)
    {p : Project} (hp : p.Fresh) (htidy : ∀ f, d.old f ≠ none ∨ d.new f ≠ none → p.root.Tidy f)
    {w₀ w : World} (hw₀ : w₀.Obliging) (hreads₀ : w₀.Reads d.read d.old) (hw : w.Obliging)
    (hreads : w.Reads d.read d.new) {paths : List Path}
    (hpaths : ∀ f, f ∈ paths ↔ d.old f ≠ none) {changes : List Change}
    (htells : ∀ c ∈ changes, c.Tells p.root d.new)
    (hnamed : ∀ f, d.old f ≠ d.new f → ∃ c ∈ changes, c.path = f) :
    let q := ((p.indexFiles w₀ paths).1.processChanges w changes true).1
    let order := (settle changes).map Change.path
    (∀ n, n ∈ q.store.allNodes ↔ ∃ f, d.read.node? d.new f n.id = some n) ∧
    ∀ e, e ∈ q.store.liveEdges ↔
      (∃ f, d.read.edge? d.new f e.id = some e ∧ ¬ d.Severed order f e.target ∧
        ¬ d.Overwritten order f e.id) ∧
      q.store.hasNode e.source = true ∧ q.store.hasNode e.target = true := by
  obtain ⟨hdrawn, hstart, hroot⟩ := drawn_indexFiles ha.old hw₀ hreads₀ hp hpaths
    fun f hf => htidy f (.inl ((hpaths f).1 hf))
  rw [← hroot] at htidy htells
  obtain ⟨h, -⟩ := finished_processChanges ha hw hreads hdrawn (fun f hf => htidy f (.inr hf))
    htells hnamed true
  have horder : ∀ {f}, f ∉ (settle changes).map Change.path → d.old f = d.new f :=
    mem_order d htidy htells hnamed
  refine ⟨fun n => ?_, fun e => ?_⟩
  · rw [Store.mem_allNodes h.consistent.coherent, h.node?_iff ha]
  · rw [Store.mem_liveEdges h.consistent.coherent]
    refine and_congr_left fun hends => ?_
    obtain ⟨n, hn⟩ := Store.hasNode_iff.1 hends.2
    obtain ⟨b, hb⟩ := (h.node?_iff ha).1 hn
    have htarget : d.read.Declares d.new b e.target := Reader.declares_iff.2 ⟨n, hb⟩
    refine (h.edge?_iff ha).trans (exists_congr fun f => and_congr_right fun he => ?_)
    rw [h.severs_iff ha horder htarget, h.overwrites_iff ha horder
      (fun hold => hstart.2 ⟨_, hold⟩) he]
    by_cases hf : f ∈ ((p.indexFiles w₀ paths).1.visits w changes true).map (·.change.path)
    · simp [hf]
    · -- A file that was not visited is the same as before, and lost nothing.
      have hfirst : ∀ {l}, ¬ f :: l <+ (settle changes).map Change.path := fun hsub =>
        hf (h.leads.subset (hsub.subset List.mem_cons_self))
      have hold : d.read.edge? d.old f e.id = some e := by
        rw [Reader.edge?, h.unvisited hf]
        exact he
      constructor
      · refine fun _ => ⟨?_, ?_⟩
        · rintro ⟨_, _, _, _, hsub⟩
          exact hfirst hsub
        · rintro ⟨_, _, _, _, _, hsub⟩
          exact hfirst hsub
      · exact fun _ => .inr ⟨hf, hstart.2 ⟨f, hold⟩, h.not_cuts ha hcontains rfl hf he⟩

/-! ## A callee that moves -/

/-- `c.cs` calls a declaration of `a.cs`. That moves to `b.cs`, and `c.cs` gets another one. -/
def calleeMoves : Edit Output where
  read := .verbatim
  old f :=
    if f = ⟨"a.cs"⟩ then some { nodes := [.ofFileAt ⟨"callee"⟩ f] }
    else if f = ⟨"c.cs"⟩ then some { nodes := [.ofFile f], edges := [.ofCall f ⟨"callee"⟩] }
    else none
  new f :=
    if f = ⟨"a.cs"⟩ then some {}
    else if f = ⟨"b.cs"⟩ then some { nodes := [.ofFileAt ⟨"callee"⟩ f] }
    else if f = ⟨"c.cs"⟩ then some
      { nodes := [.ofFile f, .ofFileAt ⟨"helper"⟩ f], edges := [.ofCall f ⟨"callee"⟩] }
    else none

/-- The project after the old files were indexed, and a batch took the new ones in. -/
def calleeMoved (changes : List Change) : Project :=
  ((Project.unread.indexFiles (calleeMoves.read.world calleeMoves.old)
    [⟨"a.cs"⟩, ⟨"c.cs"⟩]).1.processChanges (calleeMoves.read.world calleeMoves.new) changes true).1

theorem mem_of_calleeMoves_old {f : Path} (h : calleeMoves.old f ≠ none) :
    f ∈ [⟨"a.cs"⟩, ⟨"c.cs"⟩] := by
  unfold calleeMoves at h
  grind

theorem mem_of_calleeMoves {f : Path} (h : calleeMoves.old f ≠ none ∨ calleeMoves.new f ≠ none) :
    f ∈ [⟨"a.cs"⟩, ⟨"b.cs"⟩, ⟨"c.cs"⟩] := by
  unfold calleeMoves at h
  grind

theorem apart_calleeMoves : calleeMoves.Apart where
  old := Reader.apart_of_forall_mem (fun _ => mem_of_calleeMoves_old) (by decide)
    (by decide)
  new := Reader.apart_of_forall_mem (fun _ h => mem_of_calleeMoves (.inr h)) (by decide)
    (by decide)

theorem kind_calleeMoves {f : Path} {e : Edge}
    (h : e ∈ (calleeMoves.read.find f (calleeMoves.new f)).edges) : e.kind ≠ .contains := by
  have hall : ∀ f ∈ [⟨"a.cs"⟩, ⟨"b.cs"⟩, ⟨"c.cs"⟩],
      ∀ e ∈ (calleeMoves.read.find f (calleeMoves.new f)).edges, e.kind ≠ .contains := by
    decide
  obtain ⟨content, hcontent, -⟩ := Reader.mem_edges_find.1 h
  exact hall f (mem_of_calleeMoves (.inr (by simp [hcontent]))) e h

theorem tidy_calleeMoves {f : Path} (h : calleeMoves.old f ≠ none ∨ calleeMoves.new f ≠ none) :
    Project.unread.root.Tidy f := by
  have hall : ∀ f ∈ [⟨"a.cs"⟩, ⟨"b.cs"⟩, ⟨"c.cs"⟩], Project.unread.root.Tidy f := by decide
  exact hall f (mem_of_calleeMoves h)

/-- A batch in which the callee comes to its new home before it goes from the old one. -/
def homeFirst : List Change := [.modified ⟨"c.cs"⟩, .created ⟨"b.cs"⟩, .modified ⟨"a.cs"⟩]

theorem tells_homeFirst {c : Change} (h : c ∈ homeFirst) :
    c.Tells Project.unread.root calleeMoves.new := by
  simp only [homeFirst, List.mem_cons, List.not_mem_nil, or_false] at h
  rcases h with rfl | rfl | rfl <;> exact ⟨rfl, by decide, by decide⟩

theorem named_homeFirst {f : Path} (h : calleeMoves.old f ≠ calleeMoves.new f) :
    ∃ c ∈ homeFirst, c.path = f := by
  have hall : ∀ f ∈ [⟨"a.cs"⟩, ⟨"b.cs"⟩, ⟨"c.cs"⟩], ∃ c ∈ homeFirst, c.path = f := by decide
  exact hall f (mem_of_calleeMoves (ne_none_of_ne h))

/-- The call is kept if the callee comes to its new home first. -/
theorem relocated_iff_created :
    (calleeMoved homeFirst).store.liveEdges.map Edge.id = ["c.cs"] ∧
    ∀ e, e ∈ (calleeMoved homeFirst).store.liveEdges ↔
      (∃ f, calleeMoves.read.edge? calleeMoves.new f e.id = some e ∧
        ¬ calleeMoves.Severed ((settle homeFirst).map Change.path) f e.target ∧
        ¬ calleeMoves.Overwritten ((settle homeFirst).map Change.path) f e.id) ∧
      (calleeMoved homeFirst).store.hasNode e.source = true ∧
      (calleeMoved homeFirst).store.hasNode e.target = true := by
  have hall : ∀ f ∈ [⟨"a.cs"⟩, ⟨"c.cs"⟩], calleeMoves.old f ≠ none := by decide +kernel
  have h := relocated_iff apart_calleeMoves (fun he hkind => absurd hkind (kind_calleeMoves he))
    Project.fresh_unread (fun f => tidy_calleeMoves) (fun _ _ => rfl)
    (Reader.reads_world _ calleeMoves.old) (fun _ _ => rfl) (Reader.reads_world _ calleeMoves.new)
    (fun f => ⟨hall f, mem_of_calleeMoves_old⟩) (fun c => tells_homeFirst)
    fun f => named_homeFirst
  exact ⟨by decide +kernel, h.2⟩

/-- **The order of a batch matters.** The call of `c.cs` is lost if the batch visits `c.cs`, then
the old home of the callee, then its new one, though both its ends are there. It is kept if `c.cs`
is visited last. -/
theorem relocated_severed :
    calleeMoves.Apart ∧
    calleeMoves.read.edge? calleeMoves.new ⟨"c.cs"⟩ "c.cs" =
      some (Project.ownEdge ⟨"c.cs"⟩ (.ofCall ⟨"c.cs"⟩ ⟨"callee"⟩)) ∧
    (calleeMoved [.modified ⟨"c.cs"⟩, .modified ⟨"a.cs"⟩, .created ⟨"b.cs"⟩]).store.allNodes.map
      Node.id = ["c.cs", "callee", "helper"] ∧
    (calleeMoved [.modified ⟨"c.cs"⟩, .modified ⟨"a.cs"⟩, .created ⟨"b.cs"⟩]).store.liveEdges = [] ∧
    (calleeMoved [.modified ⟨"a.cs"⟩, .created ⟨"b.cs"⟩, .modified ⟨"c.cs"⟩]).store.liveEdges =
      [Project.ownEdge ⟨"c.cs"⟩ (.ofCall ⟨"c.cs"⟩ ⟨"callee"⟩)] :=
  ⟨apart_calleeMoves, by decide +kernel, by decide +kernel, by decide +kernel, by decide +kernel⟩

end Edit

end CodeGraph

import CodeGraph.Proofs.Update.Cascade
import CodeGraph.Proofs.Update.Incremental
import CodeGraph.Proofs.Update.Replacement

/-!
# Files that are edited while a batch goes on

Some files were edited, and a batch visits them one after the other, and those that it pulls in. In
the middle of the batch the graph holds what is in the visited files now and what was in the others
before. Declarations may have moved from file to file, so for a while one is found in no file, or in
two.

* `Reader.node?`, `Reader.edge?`, `Reader.Declares`, `Reader.Refers`: what is found in files.
* `Reader.Apart`: no two files use the same identifier.
* `Edit`: files before and after; `Edit.Severs`, `Edit.Overwrites`: how the edge of a visited file
  is lost.
* `Edit.Halfway`: the graph after some visits; `Edit.Halfway.visit`: every visit keeps it.
-/

namespace CodeGraph

open Std

/-! ## What is found in files -/

namespace Reader

variable {γ : Type} (read : Reader γ) (files : Contents γ)

/-- The declaration found in a file under an identifier. -/
def node? (f : Path) (i : NodeId) : Option Node := (read.find f (files f)).node? i

/-- The edge found in a file under an identifier, as it is taken in. -/
def edge? (f : Path) (i : EdgeId) : Option Edge := (read.find f (files f)).edge? f i

/-- A file declares something under an identifier. -/
def Declares (f : Path) (i : NodeId) : Prop := i ∈ (read.find f (files f)).nodes.map Node.id

/-- A file refers to a declaration by an edge that is no containment. -/
def Refers (f : Path) (t : NodeId) : Prop :=
  ∃ e ∈ (read.find f (files f)).edges, e.kind ≠ .contains ∧ e.target = t

/-- What is found in a file carries the file and starts in it, and no two files use the same
identifier. -/
structure Apart : Prop where
  node_file : ∀ {f n}, n ∈ (read.find f (files f)).nodes → n.file.parts = f.parts
  edge_file : ∀ {f e}, e ∈ (read.find f (files f)).edges → ∀ g, e.file = some g → g.parts = f.parts
  edge_source : ∀ {f e}, e ∈ (read.find f (files f)).edges → read.Declares files f e.source
  declares : ∀ {f g i}, read.Declares files f i → read.Declares files g i → f = g
  edges : ∀ {f g e e'}, e ∈ (read.find f (files f)).edges → e' ∈ (read.find g (files g)).edges →
    e.id = e'.id → f = g

variable {read files} {f g : Path}

theorem apart_of_forall_mem {present : List Path} (hpresent : ∀ f, files f ≠ none → f ∈ present)
    (hown : ∀ f ∈ present, (∀ n ∈ (read.find f (files f)).nodes, n.file.parts = f.parts) ∧
      ∀ e ∈ (read.find f (files f)).edges, (e.file.map Path.parts).getD f.parts = f.parts ∧
        e.source ∈ (read.find f (files f)).nodes.map Node.id)
    (hother : ∀ f ∈ present, ∀ g ∈ present, f ≠ g →
      (∀ n ∈ (read.find f (files f)).nodes, ∀ m ∈ (read.find g (files g)).nodes, n.id ≠ m.id) ∧
      ∀ e ∈ (read.find f (files f)).edges, ∀ e' ∈ (read.find g (files g)).edges, e.id ≠ e'.id) :
    read.Apart files := by
  have hnode : ∀ {f n}, n ∈ (read.find f (files f)).nodes → f ∈ present := by
    intro f n hn
    obtain ⟨c, hc, -⟩ := mem_nodes_find.1 hn
    exact hpresent f (by simp [hc])
  have hedge : ∀ {f e}, e ∈ (read.find f (files f)).edges → f ∈ present := by
    intro f e he
    obtain ⟨c, hc, -⟩ := mem_edges_find.1 he
    exact hpresent f (by simp [hc])
  refine ⟨?_, ?_, ?_, ?_, ?_⟩
  · exact fun hn => (hown _ (hnode hn)).1 _ hn
  · intro f e he g hg
    have hfile := ((hown f (hedge he)).2 e he).1
    rwa [hg] at hfile
  · exact fun he => ((hown _ (hedge he)).2 _ he).2
  · intro f g i hf hg
    obtain ⟨n, hn, rfl⟩ := List.mem_map.1 hf
    obtain ⟨m, hm, hid⟩ := List.mem_map.1 hg
    by_contra hne
    exact (hother f (hnode hn) g (hnode hm) hne).1 n hn m hm hid.symm
  · intro f g e e' he he' hid
    by_contra hne
    exact (hother f (hedge he) g (hedge he') hne).2 e he e' he' hid

theorem declares_iff {i : NodeId} :
    read.Declares files f i ↔ ∃ n, read.node? files f i = some n := by
  rw [← Option.ne_none_iff_exists', Declares, node?, Ne, Output.node?_eq_none, not_not]

theorem node?_ne_none {i : NodeId} {n : Node} (h : read.node? files f i = some n) :
    files f ≠ none := by
  intro hnone
  simp [node?, hnone, find] at h

theorem edge?_ne_none {i : EdgeId} {e : Edge} (h : read.edge? files f i = some e) :
    files f ≠ none := by
  intro hnone
  simp [edge?, hnone, find] at h

theorem refers_of_edge? {i : EdgeId} {e : Edge} (h : read.edge? files f i = some e)
    (hkind : e.kind ≠ .contains) : read.Refers files f e.target := by
  obtain ⟨e', he', rfl⟩ := List.mem_map.1 (Output.edge?_eq_some h).1
  rw [Project.ownEdge_kind] at hkind
  exact ⟨e', he', hkind, (Project.ownEdge_target f e').symm⟩

theorem Refers.ne_none {t : NodeId} (h : read.Refers files f t) : files f ≠ none := by
  intro hnone
  simp [Refers, hnone, find] at h

namespace Apart

variable (h : read.Apart files)
include h

theorem node?_file {i : NodeId} {n : Node} (hn : read.node? files f i = some n) :
    n.file.parts = f.parts := h.node_file (Output.node?_eq_some hn).1

theorem edge?_file {i : EdgeId} {e : Edge} (he : read.edge? files f i = some e) :
    e.file.map Path.parts = some f.parts := by
  obtain ⟨e', he', rfl⟩ := List.mem_map.1 (Output.edge?_eq_some he).1
  unfold Project.ownEdge
  cases hf : e'.file with
  | none => rfl
  | some g => simp [hf, h.edge_file he' g hf]

theorem edge?_source {i : EdgeId} {e : Edge} (he : read.edge? files f i = some e) :
    read.Declares files f e.source := by
  obtain ⟨e', he', rfl⟩ := List.mem_map.1 (Output.edge?_eq_some he).1
  rw [Project.ownEdge_source]
  exact h.edge_source he'

theorem edge?_apart {i : EdgeId} {e e' : Edge} (he : read.edge? files f i = some e)
    (he' : read.edge? files g i = some e') : f = g := by
  obtain ⟨hown, hid⟩ := Output.edge?_eq_some he
  obtain ⟨hown', hid'⟩ := Output.edge?_eq_some he'
  obtain ⟨d, hd, rfl⟩ := List.mem_map.1 hown
  obtain ⟨d', hd', rfl⟩ := List.mem_map.1 hown'
  rw [Project.ownEdge_id] at hid hid'
  exact h.edges hd hd' (hid.trans hid'.symm)

end Apart

end Reader

/-! ## Edits -/

/-- At some point of a course of visits, with the visits before it. -/
def Sometime (past : List Path) (P : List Path → Path → Prop) : Prop :=
  ∃ pre a post, past = pre ++ a :: post ∧ P pre a

theorem not_sometime_nil (P : List Path → Path → Prop) : ¬ Sometime [] P := by
  simp [Sometime]

theorem sometime_concat {past : List Path} {c : Path} {P : List Path → Path → Prop} :
    Sometime (past ++ [c]) P ↔ Sometime past P ∨ P past c := by
  constructor
  · rintro ⟨pre, a, post, heq, hP⟩
    rcases concat_eq_append_cons heq with ⟨rfl, rfl⟩ | ⟨post, rfl⟩
    · exact .inr hP
    · exact .inl ⟨pre, a, post, rfl, hP⟩
  · rintro (⟨pre, a, post, rfl, hP⟩ | hP)
    · exact ⟨pre, a, post ++ [c], by simp, hP⟩
    · exact ⟨past, c, [], rfl, hP⟩

/-- Files before and after an edit, and how they are read. -/
structure Edit (γ : Type) where
  read : Reader γ
  old : Contents γ
  new : Contents γ

namespace Edit

variable {γ : Type} (d : Edit γ)

theorem ne_none_of_ne {d : Edit γ} {f : Path} (h : d.old f ≠ d.new f) :
    d.old f ≠ none ∨ d.new f ≠ none :=
  not_and_or.1 fun hnone => h (hnone.1.trans hnone.2.symm)

/-- No two files use the same identifier, before and after. It may be used by one file before and by
another one after. -/
structure Apart : Prop where
  old : d.read.Apart d.old
  new : d.read.Apart d.new

/-- After the visits `past`, the graph holds a declaration on behalf of a file that was not
visited. -/
def Attached (past : List Path) (a : Path) (t : NodeId) : Prop :=
  d.read.Declares d.old a t ∧ ∀ g ∈ past, ¬ d.read.Declares d.new g t

/-- The visit of a file takes a declaration out of the graph. -/
def Drops (past : List Path) (a : Path) (t : NodeId) : Prop :=
  d.Attached past a t ∧ ¬ d.read.Declares d.new a t

/-- Some visit took a declaration out of the graph. -/
def Cuts (past : List Path) (t : NodeId) : Prop := Sometime past fun pre a => d.Drops pre a t

/-- Some visit after that of a file took a declaration out of the graph. -/
def Severs (past : List Path) (f : Path) (t : NodeId) : Prop :=
  Sometime past fun pre a => f ∈ pre ∧ d.Drops pre a t

/-- When a file is visited, the old edge of a file that still waits to be visited comes back in the
place of a new one: it ends at a declaration that the file at hand had and has. -/
def Hides (start : Store) (pre : List Path) (a : Path) (i : EdgeId) : Prop :=
  ∃ g e, g ∉ pre ∧ g ≠ a ∧ d.read.edge? d.old g i = some e ∧ start.edge? i = some e ∧
    d.read.Declares d.old a e.target ∧ d.read.Declares d.new a e.target

/-- When a file was visited, an old edge of another file took the place of its new one. -/
def Overwrites (start : Store) (past : List Path) (f : Path) (i : EdgeId) : Prop :=
  Sometime past fun pre a => a = f ∧ d.Hides start pre a i

/-- After the visits `past`, the declarations are the new ones of the visited files, and the old
ones of the others, unless a new one has taken their place. -/
def Holds (past : List Path) (s : Store) : Prop :=
  ∀ i n, s.node? i = some n ↔ (∃ f ∈ past, d.read.node? d.new f i = some n) ∨
    ((∀ g ∈ past, ¬ d.read.Declares d.new g i) ∧ ∃ f, f ∉ past ∧ d.read.node? d.old f i = some n)

/-- The graph in the middle of an edit, after the visits `past`, if the edges at the beginning were
those of `start`. -/
structure Halfway (start : Store) (past : List Path) (p : Project) : Prop where
  node? : d.Holds past p.store
  origin : ∀ {i e}, p.store.edge? i = some e →
    (∃ f ∈ past, d.read.edge? d.new f i = some e) ∨
    ∃ f, f ∉ past ∧ d.read.edge? d.old f i = some e ∧ start.edge? i = some e ∧
      ¬ d.Cuts past e.target
  kept : ∀ {f i e}, f ∉ past → d.read.edge? d.old f i = some e → start.edge? i = some e →
    ¬ d.Cuts past e.target → (∀ g ∈ past, d.read.edge? d.new g i = none) →
    p.store.edge? i = some e
  done : ∀ {f i e}, f ∈ past → d.read.edge? d.new f i = some e →
    (p.store.edge? i = some e ↔ ¬ d.Severs past f e.target ∧ ¬ d.Overwrites start past f i)
  refers : ∀ {t k}, t ∈ Index.bucket p.references.targets k ↔ ∃ f, f.parts = k ∧
    (f ∈ past ∧ d.read.Refers d.new f t ∨ f ∉ past ∧ d.read.Refers d.old f t)
  tidy : ∀ {f}, d.old f ≠ none ∨ d.new f ≠ none → p.root.Tidy f
  tidy_referring : ∀ {t f} {k : List Part}, (p.references.filesOf t)[k]? = some f → p.root.Tidy f

variable {d}

theorem Holds.hasNode {past : List Path} {s : Store} (h : d.Holds past s) {i : NodeId} :
    s.hasNode i = true ↔
      (∃ f ∈ past, d.read.Declares d.new f i) ∨ ∃ f, f ∉ past ∧ d.read.Declares d.old f i := by
  rw [Store.hasNode_iff]
  simp only [h _ _, Reader.declares_iff]
  constructor
  · rintro ⟨n, ⟨f, hf, hn⟩ | ⟨-, f, hf, hn⟩⟩
    · exact .inl ⟨f, hf, n, hn⟩
    · exact .inr ⟨f, hf, n, hn⟩
  · rintro (⟨f, hf, n, hn⟩ | ⟨f, hf, n, hn⟩)
    · exact ⟨n, .inl ⟨f, hf, hn⟩⟩
    · by_cases hnew : ∃ g ∈ past, ∃ m, d.read.node? d.new g i = some m
      · obtain ⟨g, hg, m, hm⟩ := hnew
        exact ⟨m, .inl ⟨g, hg, hm⟩⟩
      · exact ⟨n, .inr ⟨fun g hg hm => hnew ⟨g, hg, hm⟩, f, hf, hn⟩⟩

namespace Halfway

variable {start : Store} {past : List Path} {p q : Project} (ha : d.Apart)
  (h : d.Halfway start past p)
include h

theorem parts_ne {f c : Path} (hf : d.old f ≠ none ∨ d.new f ≠ none) (hc : p.root.Tidy c)
    (hne : f ≠ c) : f.parts ≠ c.parts := fun hparts => hne ((h.tidy hf).eq hc hparts)

theorem edge_id {i : EdgeId} {e : Edge} (he : p.store.edge? i = some e) : e.id = i := by
  rcases h.origin he with ⟨f, -, he⟩ | ⟨f, -, he, -⟩ <;> exact (Output.edge?_eq_some he).2

include ha

theorem attached_iff {c : Path} (hc : p.root.Tidy c) (hnew : c ∉ past) {t : NodeId} :
    (∃ n, p.store.node? t = some n ∧ n.file.parts = c.parts) ↔ d.Attached past c t := by
  simp only [h.node? _ _, Attached, Reader.declares_iff]
  constructor
  · rintro ⟨n, ⟨f, hf, hn⟩ | ⟨hfree, f, hf, hn⟩, hfile⟩
    · by_contra
      rw [ha.new.node?_file hn] at hfile
      exact h.parts_ne (.inr (Reader.node?_ne_none hn)) hc (fun he => hnew (he ▸ hf)) hfile
    · by_cases he : f = c
      · exact he ▸ ⟨⟨n, hn⟩, hfree⟩
      · rw [ha.old.node?_file hn] at hfile
        exact absurd hfile (h.parts_ne (.inl (Reader.node?_ne_none hn)) hc he)
  · rintro ⟨⟨n, hn⟩, hfree⟩
    exact ⟨n, .inr ⟨hfree, c, hnew, hn⟩, ha.old.node?_file hn⟩

/-- A stored edge of another file meets the file at hand only where it ends. -/
theorem meets_iff {c : Path} (hc : p.root.Tidy c) (hnew : c ∉ past) {e : Edge}
    (he : p.store.edge? e.id = some e) (hfile : e.file.map Path.parts ≠ some c.parts) :
    Project.Meets p.store c e ↔ d.Attached past c e.target := by
  rw [← h.attached_iff ha hc hnew]
  constructor
  · rintro ⟨n, hn | hn, hparts⟩
    · have hsource := (h.attached_iff ha hc hnew).1 ⟨n, hn, hparts⟩
      rcases h.origin he with ⟨f, hf, he⟩ | ⟨f, hf, he, -⟩
      · exact absurd (ha.new.edge?_source he) (hsource.2 f hf)
      · -- The edge starts at an old declaration of its own file, which is another one.
        obtain rfl := ha.old.declares (ha.old.edge?_source he) hsource.1
        exact absurd (ha.old.edge?_file he) hfile
    · exact ⟨n, hn, hparts⟩
  · rintro ⟨n, hn, hparts⟩
    exact ⟨n, .inr hn, hparts⟩

section Visit

variable {c : Path} (hc : p.root.Tidy c) (hnew : c ∉ past)
  (hq : p.Replaced c (d.read.find c (d.new c)) q)
include hc hnew hq

theorem node?_visit : d.Holds (past ++ [c]) q.store := by
  intro i n
  have hfound : q.store.node? i = some n ↔ d.read.node? d.new c i = some n ∨
      (d.read.node? d.new c i = none ∧ p.store.node? i = some n ∧ n.file.parts ≠ c.parts) :=
    hq.node?
  have hnone : d.read.node? d.new c i = none ↔ ¬ d.read.Declares d.new c i := by
    rw [Reader.declares_iff, ← Option.ne_none_iff_exists', not_not]
  rw [hfound, h.node?, hnone]
  simp only [List.mem_append, List.mem_singleton]
  constructor
  · rintro (hn | ⟨hfree, ⟨f, hf, hn⟩ | ⟨hold, f, hf, hn⟩, hfile⟩)
    · exact .inl ⟨c, .inr rfl, hn⟩
    · exact .inl ⟨f, .inl hf, hn⟩
    · refine .inr ⟨?_, f, ?_, hn⟩
      · rintro g (hg | rfl)
        · exact hold g hg
        · exact hfree
      · rintro (hp | rfl)
        · exact hf hp
        · exact hfile (ha.old.node?_file hn)
  · rintro (⟨f, hf | rfl, hn⟩ | ⟨hfree, f, hf, hn⟩)
    · have hne : f ≠ c := fun he => hnew (he ▸ hf)
      have hparts := h.parts_ne (.inr (Reader.node?_ne_none hn)) hc hne
      refine .inr ⟨fun hd => hne ?_, .inl ⟨f, hf, hn⟩, by rwa [ha.new.node?_file hn]⟩
      exact ha.new.declares (Reader.declares_iff.2 ⟨n, hn⟩) hd
    · exact .inl hn
    · obtain ⟨hf, hne⟩ := not_or.1 hf
      have hparts := h.parts_ne (.inl (Reader.node?_ne_none hn)) hc hne
      refine .inr ⟨hfree c (.inr rfl), .inr ⟨fun g hg => hfree g (.inl hg), f, hf, hn⟩, ?_⟩
      rwa [ha.old.node?_file hn]

/-- An edge of another file that ends at the old data of the file at hand comes back exactly if its
target does. -/
theorem returns_iff {e : Edge} (he : p.store.edge? e.id = some e)
    (hfile : e.file.map Path.parts ≠ some c.parts) :
    Project.Returns p q c e ↔ d.Attached past c e.target ∧ d.read.Declares d.new c e.target := by
  have hholds := h.node?_visit ha hc hnew hq
  have hsource : q.store.hasNode e.source = true := by
    rw [hholds.hasNode]
    rcases h.origin he with ⟨f, hf, he⟩ | ⟨f, hf, he, -⟩
    · exact .inl ⟨f, List.mem_append_left _ hf, ha.new.edge?_source he⟩
    · refine .inr ⟨f, ?_, ha.old.edge?_source he⟩
      rw [List.mem_append, List.mem_singleton, not_or]
      refine ⟨hf, ?_⟩
      rintro rfl
      exact hfile (ha.old.edge?_file he)
  have htarget : d.Attached past c e.target →
      (q.store.hasNode e.target = true ↔ d.read.Declares d.new c e.target) := by
    intro hattached
    rw [hholds.hasNode]
    simp only [List.mem_append, List.mem_singleton]
    constructor
    · rintro (⟨f, hf | rfl, hd⟩ | ⟨f, hf, hd⟩)
      · exact absurd hd (hattached.2 f hf)
      · exact hd
      · exact absurd (.inr (ha.old.declares hd hattached.1)) hf
    · exact fun hd => .inl ⟨c, .inr rfl, hd⟩
  rw [Project.Returns, h.meets_iff ha hc hnew he hfile]
  constructor
  · rintro ⟨-, -, hattached, -, hend⟩
    exact ⟨hattached, (htarget hattached).1 hend⟩
  · rintro ⟨hattached, hd⟩
    exact ⟨he, hfile, hattached, hsource, (htarget hattached).2 hd⟩

theorem edge?_stays {i : EdgeId} {e : Edge} (he : p.store.edge? i = some e)
    (hfile : e.file.map Path.parts ≠ some c.parts) (hdrops : ¬ d.Drops past c e.target)
    (hfree : d.read.edge? d.new c i = none) : q.store.edge? i = some e := by
  obtain rfl := h.edge_id he
  rw [hq.edge?]
  by_cases hattached : d.Attached past c e.target
  · have hd : d.read.Declares d.new c e.target := by
      by_contra hgone
      exact hdrops ⟨hattached, hgone⟩
    exact .inl ⟨(h.returns_iff ha hc hnew hq he hfile).2 ⟨hattached, hd⟩, rfl⟩
  · have hmeets := (h.meets_iff ha hc hnew he hfile).not.2 hattached
    refine .inr ⟨fun e' he' hid => hmeets ?_, .inr ⟨hfree, he, hfile, hmeets⟩⟩
    obtain ⟨hstored, -, hmeets', -⟩ := he'
    rw [hid, he] at hstored
    obtain rfl := Option.some.inj hstored
    exact hmeets'

/-- An edge after a visit is one of the file at hand, or was there and its target did not go. -/
theorem edge?_visit {i : EdgeId} {e : Edge} (he : q.store.edge? i = some e) :
    d.read.edge? d.new c i = some e ∨ (p.store.edge? i = some e ∧
      e.file.map Path.parts ≠ some c.parts ∧ ¬ d.Drops past c e.target) := by
  rcases hq.edge?.1 he with ⟨hreturns, rfl⟩ | ⟨-, he | ⟨-, he, hfile, hmeets⟩⟩
  · have hd := (h.returns_iff ha hc hnew hq hreturns.1 hreturns.2.1).1 hreturns
    exact .inr ⟨hreturns.1, hreturns.2.1, fun hdrops => hdrops.2 hd.2⟩
  · exact .inl he
  · obtain rfl := h.edge_id he
    refine .inr ⟨he, hfile, fun hdrops => hmeets ?_⟩
    exact (h.meets_iff ha hc hnew he hfile).2 hdrops.1

theorem origin_visit {i : EdgeId} {e : Edge} (he : q.store.edge? i = some e) :
    (∃ f ∈ past ++ [c], d.read.edge? d.new f i = some e) ∨
    ∃ f, f ∉ past ++ [c] ∧ d.read.edge? d.old f i = some e ∧ start.edge? i = some e ∧
      ¬ d.Cuts (past ++ [c]) e.target := by
  rcases h.edge?_visit ha hc hnew hq he with he | ⟨he, hfile, hdrops⟩
  · exact .inl ⟨c, List.mem_append_right _ List.mem_cons_self, he⟩
  · rcases h.origin he with ⟨f, hf, he⟩ | ⟨f, hf, he, hstart, hcut⟩
    · exact .inl ⟨f, List.mem_append_left _ hf, he⟩
    · refine .inr ⟨f, ?_, he, hstart, ?_⟩
      · rw [List.mem_append, List.mem_singleton, not_or]
        refine ⟨hf, ?_⟩
        rintro rfl
        exact hfile (ha.old.edge?_file he)
      · rw [Cuts, sometime_concat, not_or]
        exact ⟨hcut, hdrops⟩

theorem kept_visit {f : Path} {i : EdgeId} {e : Edge} (hf : f ∉ past ++ [c])
    (he : d.read.edge? d.old f i = some e) (hstart : start.edge? i = some e)
    (hcut : ¬ d.Cuts (past ++ [c]) e.target)
    (hfree : ∀ g ∈ past ++ [c], d.read.edge? d.new g i = none) : q.store.edge? i = some e := by
  rw [List.mem_append, List.mem_singleton, not_or] at hf
  rw [Cuts, sometime_concat, not_or] at hcut
  rw [List.forall_mem_append, List.forall_mem_singleton] at hfree
  refine h.edge?_stays ha hc hnew hq (h.kept hf.1 he hstart hcut.1 hfree.1) ?_ hcut.2 hfree.2
  rw [ha.old.edge?_file he]
  exact fun hparts => h.parts_ne (.inl (Reader.edge?_ne_none he)) hc hf.2 (Option.some.inj hparts)

theorem edge?_own {i : EdgeId} {e : Edge} (he : d.read.edge? d.new c i = some e) :
    q.store.edge? i = some e ↔ ¬ d.Hides start past c i := by
  rw [hq.edge?]
  have hfile := ha.new.edge?_file he
  constructor
  · rintro (⟨hreturns, -⟩ | ⟨hfree, -⟩)
    · exact absurd hfile hreturns.2.1
    · rintro ⟨g, e', hg, hne, hold, hstart, hdold, hdnew⟩
      -- No visited file has to do with the target or the identifier of the old edge.
      have hcut : ¬ d.Cuts past e'.target := by
        rintro ⟨pre, a, post, rfl, ⟨hda, -⟩, -⟩
        exact hnew (ha.old.declares hdold hda ▸ by simp)
      have hstored := h.kept hg hold hstart hcut fun g' hg' => by
        cases hd : d.read.edge? d.new g' i with
        | none => rfl
        | some _ => exact absurd (ha.new.edge?_apart hd he ▸ hg') hnew
      obtain rfl := h.edge_id hstored
      have hfile' : e'.file.map Path.parts ≠ some c.parts := by
        rw [ha.old.edge?_file hold]
        exact fun hparts => h.parts_ne (.inl (Reader.edge?_ne_none hold)) hc hne
          (Option.some.inj hparts)
      refine hfree e' ((h.returns_iff ha hc hnew hq hstored hfile').2 ⟨⟨hdold, ?_⟩, hdnew⟩) rfl
      exact fun g' hg' hd => hnew (ha.new.declares hd hdnew ▸ hg')
  · intro hhides
    refine .inr ⟨fun e' hreturns hid => hhides ?_, .inl he⟩
    have hstored := hreturns.1
    rw [hid] at hstored
    have hd := (h.returns_iff ha hc hnew hq hreturns.1 hreturns.2.1).1 hreturns
    rcases h.origin hstored with ⟨g, hg, hold⟩ | ⟨g, hg, hold, hstart, -⟩
    · exact absurd (ha.new.edge?_apart hold he ▸ hg) hnew
    · refine ⟨g, e', hg, ?_, hold, hstart, hd.1.1, hd.2⟩
      rintro rfl
      exact hreturns.2.1 (ha.old.edge?_file hold)

theorem done_visit {f : Path} {i : EdgeId} {e : Edge} (hf : f ∈ past ++ [c])
    (he : d.read.edge? d.new f i = some e) :
    q.store.edge? i = some e ↔
      ¬ d.Severs (past ++ [c]) f e.target ∧ ¬ d.Overwrites start (past ++ [c]) f i := by
  have hbefore : ∀ {P : List Path → Path → Prop}, (∀ pre a, P pre a → c ∈ pre ∨ a = c) →
      ¬ Sometime past P := by
    rintro P hP ⟨pre, a, post, rfl, ha⟩
    rcases hP pre a ha with hc | rfl
    · exact hnew (List.mem_append_left _ hc)
    · exact hnew (by simp)
  rw [Severs, Overwrites, sometime_concat, sometime_concat]
  rcases List.mem_append.1 hf with hf | hf
  · have hne : f ≠ c := fun hfc => hnew (hfc ▸ hf)
    have hfree : d.read.edge? d.new c i = none := by
      cases hd : d.read.edge? d.new c i with
      | none => rfl
      | some _ => exact absurd (ha.new.edge?_apart he hd) hne
    have hfile : e.file.map Path.parts ≠ some c.parts := by
      rw [ha.new.edge?_file he]
      exact fun hparts => h.parts_ne (.inr (Reader.edge?_ne_none he)) hc hne
        (Option.some.inj hparts)
    have hstep : q.store.edge? i = some e ↔
        p.store.edge? i = some e ∧ ¬ d.Drops past c e.target := by
      constructor
      · intro hq'
        rcases h.edge?_visit ha hc hnew hq hq' with hown | ⟨hp, -, hdrops⟩
        · rw [hfree] at hown
          cases hown
        · exact ⟨hp, hdrops⟩
      · exact fun hp => h.edge?_stays ha hc hnew hq hp.1 hfile hp.2 hfree
    have hdone := h.done hf he
    rw [Severs, Overwrites] at hdone
    rw [hstep, hdone]
    simp only [hf, true_and, Ne.symm hne, false_and, or_false, not_or]
    exact and_right_comm
  · obtain rfl := List.mem_singleton.1 hf
    rw [h.edge?_own ha hc hnew hq he]
    have hsevers := hbefore (P := fun pre a => f ∈ pre ∧ d.Drops pre a e.target)
      fun pre a hP => .inl hP.1
    have hoverwrites := hbefore (P := fun pre a => a = f ∧ d.Hides start pre a i)
      fun pre a hP => .inr hP.1
    simp [hsevers, hoverwrites, hnew]

omit ha hnew in
theorem refers_visit {t : NodeId} {k : List Part} :
    t ∈ Index.bucket q.references.targets k ↔ ∃ f, f.parts = k ∧
      (f ∈ past ++ [c] ∧ d.read.Refers d.new f t ∨ f ∉ past ++ [c] ∧ d.read.Refers d.old f t) := by
  rw [hq.references, Project.mem_targets_recordEdges, References.mem_targets_removeFile, h.refers]
  simp only [List.mem_map, exists_exists_and_eq_and, Project.ownEdge_kind, Project.ownEdge_target,
    List.mem_append, List.mem_singleton, not_or]
  constructor
  · rintro (⟨rfl, hrefers⟩ | ⟨hk, f, rfl, ⟨hf, hrefers⟩ | ⟨hf, hrefers⟩⟩)
    · exact ⟨c, rfl, .inl ⟨.inr rfl, hrefers⟩⟩
    · exact ⟨f, rfl, .inl ⟨.inl hf, hrefers⟩⟩
    · exact ⟨f, rfl, .inr ⟨⟨hf, fun hfc => hk (hfc ▸ rfl)⟩, hrefers⟩⟩
  · rintro ⟨f, rfl, ⟨hf | rfl, hrefers⟩ | ⟨⟨hf, hne⟩, hrefers⟩⟩
    · by_cases hfc : f = c
      · subst hfc
        exact .inl ⟨rfl, hrefers⟩
      · exact .inr ⟨h.parts_ne (.inr hrefers.ne_none) hc hfc, f, rfl, .inl ⟨hf, hrefers⟩⟩
    · exact .inl ⟨rfl, hrefers⟩
    · exact .inr ⟨h.parts_ne (.inl hrefers.ne_none) hc hne, f, rfl, .inr ⟨hf, hrefers⟩⟩

/-- **A visit keeps the invariant.** -/
theorem visit (hmutual : p.references.Mutual) (hroot : q.root = p.root) :
    d.Halfway start (past ++ [c]) q where
  node? := h.node?_visit ha hc hnew hq
  origin he := h.origin_visit ha hc hnew hq he
  kept hf he hstart hcut hfree := h.kept_visit ha hc hnew hq hf he hstart hcut hfree
  done hf he := h.done_visit ha hc hnew hq hf he
  refers := h.refers_visit hc hq
  tidy hf := hroot ▸ h.tidy hf
  tidy_referring {t f k} hf := by
    rw [hroot]
    rw [hq.references] at hf
    rcases Project.getElem?_filesOf_recordEdges hf with rfl | hf
    · exact hc
    · rw [References.getElem?_filesOf_removeFile hmutual] at hf
      split at hf
      · cases hf
      · exact h.tidy_referring hf

end Visit

end Halfway

end Edit

end CodeGraph

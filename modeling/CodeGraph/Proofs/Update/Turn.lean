import CodeGraph.Proofs.Update.Renewal
import Mathlib.Data.List.Perm.Subperm

/-!
# Turns of a batch

A run of a batch takes one file after the other. Each file that is pulled in refers to something and
was not seen before, so there is an end to it.

* `Batch.turn`, `Batch.runWithin_eq_turn`: one turn, and a run as turns.
* **`Batch.runWithin_ends`**: a run with enough fuel ends where there is no turn left.
* `Batch.mem_dependents`, `Batch.exists_dependent`: the files that a turn pulls in.
* `Batch.remaining`, `Batch.remaining_succeed`: how many turns a batch can still take.
* `Batch.advance`: the batch after a turn.
* `Project.Refreshed`, **`Batch.turn_refreshes`**: what a turn does if nobody fails.
-/

namespace CodeGraph

open Std

namespace Batch

/-! ## A run as turns -/

/-- Handles the next file, if there is one and the batch is not to stop. -/
def turn (w : World) (b : Batch) (p : Project) : Option (Project × Batch) :=
  match b.next w p with
  | (_, _, .finished) => none
  | (p, b, .handled) => some (p, b)
  | (p, b, .awaits f) => some (b.answer w (ask w p f).1 f (ask w p f).2.2)

theorem runWithin_eq_turn (w : World) (fuel : Nat) (b : Batch) (p : Project) :
    runWithin w (fun _ => false) (fuel + 1) b p =
      match b.turn w p with
      | none => ((b.next w p).1, (b.next w p).2.1, .ended)
      | some (p', b') => runWithin w (fun _ => false) fuel b' p' := by
  rw [runWithin, turn]
  rcases b.next w p with ⟨p', b', _ | _ | f⟩ <;> rfl

/-- If every turn keeps `I` and takes from a measure, a run with enough fuel ends where there is no
turn left. -/
theorem runWithin_ends {w : World} {I : Project → Batch → Prop} {m : Project → Batch → Nat}
    (hturn : ∀ {p b p' b'}, I p b → b.turn w p = some (p', b') →
      I p' b' ∧ m p' b' < m p b)
    {fuel : Nat} {p : Project} {b : Batch} (h : I p b) (hfuel : m p b < fuel) :
    ∃ p' b', I p' b' ∧ b'.turn w p' = none ∧
      runWithin w (fun _ => false) fuel b p = ((b'.next w p').1, (b'.next w p').2.1, .ended) := by
  induction fuel generalizing p b with
  | zero => omega
  | succ fuel ih =>
    rw [runWithin_eq_turn]
    cases ht : b.turn w p with
    | none => exact ⟨p, b, h, ht, rfl⟩
    | some next =>
      obtain ⟨hI, hlt⟩ := hturn h ht
      exact ih hI (by omega)

/-! ## The files that are pulled in -/

/-- The paths of the queue, by their parts. -/
def keys (b : Batch) : List (List Part) := b.queue.map fun c => c.1.path.parts

theorem getElem?_dependents {b : Batch} {r : References} {seed : List NodeId} {k : List Part}
    {f : Path} :
    ((r.filesOfAll seed).filter fun key _ =>
      !b.processed.contains key && !b.queued.contains key)[k]? = some f ↔
    (r.filesOfAll seed)[k]? = some f ∧ k ∉ b.processed ∧ k ∉ b.queued := by
  rw [ExtTreeMap.getElem?_filter', Option.filter_eq_some_iff, Bool.and_eq_true, Bool.not_eq_true',
    Bool.not_eq_true', ← Bool.not_eq_true, ← Bool.not_eq_true, ExtTreeSet.contains_iff_mem,
    ExtTreeSet.contains_iff_mem]

theorem mem_dependents {b : Batch} {r : References} (hr : r.Mutual) {seed : List NodeId} {f : Path}
    (h : f ∈ b.dependents r seed) :
    (∃ t ∈ seed, (r.filesOf t)[f.parts]? = some f) ∧ f.parts ∉ b.processed ∧
      f.parts ∉ b.queued := by
  obtain ⟨k, hk⟩ := mem_values_iff.1 h
  obtain ⟨hall, hnew⟩ := getElem?_dependents.1 hk
  obtain ⟨t, ht, hf⟩ := References.getElem?_filesOfAll hall
  have hparts := hr.spelled hf
  subst hparts
  exact ⟨⟨t, ht, hf⟩, hnew⟩

theorem exists_dependent {b : Batch} {r : References} (hr : r.Mutual) {seed : List NodeId}
    {t : NodeId} {k : List Part} (ht : t ∈ seed) (hk : k ∈ r.filesOf t) (hp : k ∉ b.processed)
    (hq : k ∉ b.queued) : ∃ f ∈ b.dependents r seed, f.parts = k := by
  have hall : k ∈ r.filesOfAll seed := References.mem_filesOfAll.2 ⟨t, ht, hk⟩
  obtain ⟨f, hf⟩ := Option.isSome_iff_exists.1 (ExtTreeMap.mem_iff_isSome_getElem?.1 hall)
  obtain ⟨t', -, hf'⟩ := References.getElem?_filesOfAll hf
  exact ⟨f, mem_values_iff.2 ⟨k, getElem?_dependents.2 ⟨hf, hp, hq⟩⟩, hr.spelled hf'⟩

theorem nodup_dependents {r : References} (hr : r.Mutual) (b : Batch) (seed : List NodeId) :
    ((b.dependents r seed).map Path.parts).Nodup := by
  have hkeys : ∀ {k} {f : Path}, ((r.filesOfAll seed).filter fun key _ =>
      !b.processed.contains key && !b.queued.contains key)[k]? = some f → f.parts = k := by
    intro k f hf
    obtain ⟨t, -, hf⟩ := References.getElem?_filesOfAll (getElem?_dependents.1 hf).1
    exact hr.spelled hf
  rw [dependents, map_values_eq_keys hkeys]
  exact ExtTreeMap.nodup_keys

theorem mem_foldl_insert {α : Type} (key : α → List Part) (l : List α) (s : PathSet)
    {k : List Part} : k ∈ l.foldl (fun s a => s.insert (key a)) s ↔ k ∈ s ∨ k ∈ l.map key := by
  induction l generalizing s with
  | nil => simp
  | cons a l ih =>
    rw [List.foldl_cons, ih, ExtTreeSet.mem_insert, LawfulEqCmp.compare_eq_iff_eq, List.map_cons,
      List.mem_cons]
    grind

theorem mem_queued_enqueue {b : Batch} {files : List Path} {k : List Part} :
    k ∈ (b.enqueue files).queued ↔ k ∈ b.queued ∨ k ∈ files.map Path.parts :=
  mem_foldl_insert Path.parts files b.queued

/-! ## How long a batch can go on -/

/-- The files that refer to something and were never in the queue. -/
def unseen (b : Batch) (r : References) : List (List Part) :=
  r.targets.keys.filter fun k => !b.queued.contains k

/-- How many turns a batch can still take. -/
def remaining (b : Batch) (r : References) : Nat := b.queue.length + (b.unseen r).length

theorem mem_unseen {b : Batch} {r : References} {k : List Part} :
    k ∈ b.unseen r ↔ k ∈ r.targets ∧ k ∉ b.queued := by
  rw [unseen, List.mem_filter, ExtTreeMap.mem_keys, Bool.not_eq_true', ← Bool.not_eq_true,
    ExtTreeSet.contains_iff_mem]

theorem nodup_unseen (b : Batch) (r : References) : (b.unseen r).Nodup :=
  ExtTreeMap.nodup_keys.filter _

theorem remaining_lt_bound (b : Batch) (p : Project) : b.remaining p.references < b.bound p := by
  have hlength : (b.unseen p.references).length ≤ p.references.fileCount := by
    rw [References.fileCount, ← ExtTreeMap.length_keys]
    exact List.length_filter_le _ _
  unfold remaining bound
  omega

theorem remaining_enqueue {r : References} (hr : r.Mutual) (b : Batch) (seed : List NodeId) :
    (b.enqueue (b.dependents r seed)).remaining r ≤ b.remaining r := by
  have hqueue : (b.enqueue (b.dependents r seed)).queue.length =
      b.queue.length + (b.dependents r seed).length := by
    simp [enqueue]
  have hdisjoint : List.Disjoint ((b.enqueue (b.dependents r seed)).unseen r)
      ((b.dependents r seed).map Path.parts) := by
    intro k hk hd
    rw [mem_unseen, mem_queued_enqueue] at hk
    exact hk.2 (.inr hd)
  have hsubset : (b.enqueue (b.dependents r seed)).unseen r ++
      (b.dependents r seed).map Path.parts ⊆ b.unseen r := by
    intro k hk
    rw [mem_unseen]
    rcases List.mem_append.1 hk with hk | hk
    · rw [mem_unseen, mem_queued_enqueue, not_or] at hk
      exact ⟨hk.1, hk.2.1⟩
    · obtain ⟨f, hf, rfl⟩ := List.mem_map.1 hk
      obtain ⟨⟨t, -, hf⟩, -, hq⟩ := mem_dependents hr hf
      have hmem := hr.mem_filesOf.1 (ExtTreeMap.mem_iff_isSome_getElem?.2 (by rw [hf]; rfl))
      exact ⟨(Index.mem_iff_exists_mem_bucket hr.proper).2 ⟨t, hmem⟩, hq⟩
  have hnodup := (nodup_unseen _ r).append (nodup_dependents hr b seed) hdisjoint
  have hle := (List.subperm_of_subset hnodup hsubset).length_le
  rw [List.length_append, List.length_map] at hle
  unfold remaining
  omega

theorem remaining_succeed {r : References} (hr : r.Mutual) (b : Batch) (path : Path)
    (cascaded : Bool) (seed : List NodeId) :
    (b.succeed r path cascaded seed).remaining r ≤ b.remaining r := by
  unfold succeed
  dsimp only
  split
  · exact remaining_enqueue hr _ seed
  · exact Nat.le_refl _

/-- Only files that were in the queue come to refer to something. -/
theorem remaining_mono {b : Batch} {r r' : References}
    (h : ∀ k, k ∈ r'.targets → k ∉ b.queued → k ∈ r.targets) : b.remaining r' ≤ b.remaining r := by
  have hsubset : b.unseen r' ⊆ b.unseen r := by
    intro k hk
    rw [mem_unseen] at hk ⊢
    exact ⟨h k hk.1 hk.2, hk.2⟩
  have hle := (List.subperm_of_subset (nodup_unseen b r') hsubset).length_le
  unfold remaining
  omega

end Batch

/-! ## A turn in which nobody fails -/

/-- A repository that never refuses. -/
def World.Obliging (w : World) : Prop := ∀ n c, w.refusal? n c = none

/-- The project after the data of a file was replaced by an output. -/
structure Project.Refreshed (p : Project) (path : Path) (output : Output) (q : Project) : Prop where
  store : Project.Renewed p.store path output q.store
  references : q.references = Project.recordEdges (p.references.removeFile path) path
    (output.edges.map (Project.ownEdge path))
  root : q.root = p.root
  cancelled : q.cancelled = p.cancelled

namespace Project

theorem refreshed_drop {p q : Project} (hc : p.store.Coherent) {path : Path}
    (h : Keeps (p.dropFile path).1 q) : Refreshed p path {} q where
  store := h.store ▸ renewed_dropped (dropped_dropFile hc path)
  references := h.references
  root := h.root
  cancelled := h.cancelled

theorem Keeps.absorb {p q : Project} (h : Keeps p q) (path : Path) (output : Output)
    (orphaned : List Edge) :
    Keeps (p.absorb path output orphaned) (q.absorb path output orphaned) where
  store := by rw [store_absorb, store_absorb, h.store]
  references := by simp only [Project.absorb, addOutput, h.references]
  root := h.root
  cancelled := h.cancelled

theorem refreshed_absorb {p q : Project} (hc : p.store.Coherent) {path : Path} {output : Output}
    (hf : Fits p.store path output)
    (h : Keeps ((p.dropFile path).1.absorb path output (p.dropFile path).2.orphaned) q) :
    Refreshed p path output q where
  store := by
    rw [h.store, store_absorb]
    exact renewed_integrated (dropped_dropFile hc path) hf hc
  references := h.references
  root := h.root
  cancelled := h.cancelled

theorem Refreshed.mem_targets {p q : Project} {path : Path} {output : Output}
    (h : p.Refreshed path output q) {t : NodeId} {k : List Part} :
    t ∈ Index.bucket q.references.targets k ↔
      (k = path.parts ∧ ∃ e ∈ output.edges, e.kind ≠ .contains ∧ e.target = t) ∨
        (k ≠ path.parts ∧ t ∈ Index.bucket p.references.targets k) := by
  rw [h.references, mem_targets_recordEdges, References.mem_targets_removeFile]
  simp only [List.mem_map, exists_exists_and_eq_and, ownEdge_kind, ownEdge_target]

section Obliging

variable {w : World} (hw : w.Obliging) (p : Project) (s : Summary) (path : Path)
include hw

theorem removeFile_of_obliging :
    ∃ q s', Keeps (p.dropFile path).1 q ∧
      p.removeFile w s path = (q, s', .ok (p.dropFile path).2) := by
  have hok : (p.removeFile w s path).2.2 = .ok (p.dropFile path).2 := by
    simp [removeFile, forgetFile, call, change, hw _ _]
  obtain ⟨q, s', hkeeps, ⟨e, hr⟩ | hr⟩ := p.removeFile_cases w s path
  · rw [hr] at hok
    cases hok
  · exact ⟨q, s', hkeeps, hr⟩

theorem integrate_of_obliging (output : Output) (orphaned : List Edge) :
    ∃ q s', Keeps (p.absorb path output orphaned) q ∧
      p.integrate w s path output orphaned = (q, s', .ok ()) := by
  have hok : (p.integrate w s path output orphaned).2.2 = .ok () := by
    simp [integrate, saveOutput, call, change, hw _ _]
  obtain ⟨q, s', hkeeps, ⟨e, hr⟩ | hr⟩ := p.integrate_cases w s path output orphaned
  · rw [hr] at hok
    cases hok
  · exact ⟨q, s', hkeeps, hr⟩

end Obliging

end Project

namespace Batch

/-- The batch after the first file of its queue was taken. -/
def taken (b : Batch) (path : Path) (s : Summary) : Batch :=
  { b with queue := b.queue.tail, processed := b.processed.insert path.parts, summary := s }

/-- The batch after the first file of its queue was handled, and the files that refer to some
declarations were pulled in. -/
def advance (b : Batch) (path : Path) (cascaded : Bool) (s : Summary) (r : References)
    (seed : List NodeId) : Batch := (b.taken path s).succeed r path cascaded seed

section Advance

variable {b : Batch} (hc : b.cascade = true) (path : Path) (cascaded : Bool) (s : Summary)
  (r : References) (seed : List NodeId)

theorem mem_keys_taken {c : Change} {cascaded : Bool} {rest : List (Change × Bool)}
    (hqueue : b.queue = (c, cascaded) :: rest) (s : Summary) {k : List Part} :
    k ∈ b.keys ↔ k = c.path.parts ∨ k ∈ (b.taken c.path s).keys := by
  simp [keys, taken, hqueue]

theorem mem_processed_taken {path : Path} {s : Summary} {k : List Part} :
    k ∈ (b.taken path s).processed ↔ k = path.parts ∨ k ∈ b.processed := by
  rw [taken, ExtTreeSet.mem_insert, LawfulEqCmp.compare_eq_iff_eq, eq_comm]

theorem mem_processed_advance {k : List Part} :
    k ∈ (b.advance path cascaded s r seed).processed ↔ k = path.parts ∨ k ∈ b.processed := by
  rw [← mem_processed_taken (s := s)]
  unfold advance succeed
  dsimp only
  split <;> rfl

theorem cascade_advance : (b.advance path cascaded s r seed).cascade = b.cascade := by
  unfold advance succeed
  dsimp only
  split <;> rfl

include hc

theorem advance_eq_enqueue :
    ∃ s', b.advance path cascaded s r seed =
      (b.taken path s').enqueue ((b.taken path s).dependents r seed) := ⟨_, if_pos hc⟩

theorem queue_advance :
    (b.advance path cascaded s r seed).queue =
      b.queue.tail ++ ((b.taken path s).dependents r seed).map fun f => (.modified f, true) := by
  obtain ⟨s', h⟩ := advance_eq_enqueue hc path cascaded s r seed
  rw [h]
  rfl

theorem mem_keys_advance {k : List Part} :
    k ∈ (b.advance path cascaded s r seed).keys ↔
      k ∈ (b.taken path s).keys ∨ k ∈ ((b.taken path s).dependents r seed).map Path.parts := by
  rw [keys, queue_advance hc, List.map_append, List.map_map, List.mem_append]
  rfl

theorem mem_queued_advance {k : List Part} :
    k ∈ (b.advance path cascaded s r seed).queued ↔
      k ∈ b.queued ∨ k ∈ ((b.taken path s).dependents r seed).map Path.parts := by
  obtain ⟨s', h⟩ := advance_eq_enqueue hc path cascaded s r seed
  rw [h]
  exact mem_queued_enqueue

end Advance

theorem answer_of_obliging {w : World} (hw : w.Obliging) (b : Batch) (p : Project) (f : InFlight)
    (output : Output) :
    ∃ q s, Project.Keeps (p.absorb f.change.path output f.orphaned) q ∧
      b.answer w p f { outcome := .ok output } =
        (q, { b with summary := s }.succeed q.references f.change.path f.cascaded
          (f.seed ++ output.nodes.map Node.id)) := by
  obtain ⟨q, s, hkeeps, hi⟩ :=
    Project.integrate_of_obliging hw p b.summary f.change.path output f.orphaned
  refine ⟨q, s, hkeeps, ?_⟩
  simp [answer, hi]

section Turn

variable {w : World} {b : Batch} {p : Project} {c : Change} {cascaded : Bool}
  {rest : List (Change × Bool)} (hqueue : b.queue = (c, cascaded) :: rest)
  (hcancel : p.cancelled = false)
include hqueue hcancel

theorem turn_skips (hold : c.path.parts ∈ b.processed) :
    b.turn w p = some (p, { b with queue := rest }) := by
  have hcontains : b.processed.contains c.path.parts = true := ExtTreeSet.contains_iff_mem.2 hold
  simp [turn, next, hqueue, hcancel, hcontains]

variable (hnew : c.path.parts ∉ b.processed) (hsource : c.source? = none)
include hnew hsource

theorem next_of_obliging (hw : w.Obliging) :
    ∃ q s, Project.Keeps (p.dropFile c.path).1 q ∧
      b.next w p =
        if c.isDeletion then
          (q, b.advance c.path cascaded s q.references (p.dropFile c.path).2.nodes, .handled)
        else
          (q, b.taken c.path s, .awaits
            ⟨c, cascaded, (p.dropFile c.path).2.nodes, (p.dropFile c.path).2.orphaned⟩) := by
  have hcontains : b.processed.contains c.path.parts = false := by
    rw [← Bool.not_eq_true, ExtTreeSet.contains_iff_mem]
    exact hnew
  obtain ⟨q, s, hkeeps, hr⟩ := Project.removeFile_of_obliging hw p b.summary c.path
  refine ⟨q, s, hkeeps, ?_⟩
  simp [next, start, removeStale, advance, taken, hqueue, hcancel, hcontains, hsource, hr]

/-- **A turn replaces the data of its file by what is to be found in it**: nothing, if the file is
gone, and else what the analyzer says. -/
theorem turn_refreshes (hw : w.Obliging) (hc : p.store.Coherent) {output : Output}
    (hfits : Project.Fits p.store c.path output)
    (houtput : if c.isDeletion then output = {} else
      ∀ n r, r.path = c.path → w.analyze n r = { outcome := .ok output }) :
    ∃ q s seed, p.Refreshed c.path output q ∧ (∀ n ∈ output.nodes, n.id ∈ seed) ∧
      b.turn w p = some (q, b.advance c.path cascaded s q.references seed) := by
  obtain ⟨q, s, hkeeps, hnext⟩ := next_of_obliging hqueue hcancel hnew hsource hw
  by_cases hdel : c.isDeletion = true
  · rw [if_pos hdel] at hnext houtput
    subst houtput
    refine ⟨q, s, (p.dropFile c.path).2.nodes, Project.refreshed_drop hc hkeeps, by simp, ?_⟩
    rw [turn, hnext]
  · rw [if_neg hdel] at hnext houtput
    generalize hf : InFlight.mk c cascaded _ _ = f at hnext
    have hasked : Project.Keeps q (ask w q f).1 := ⟨rfl, rfl, rfl, rfl⟩
    obtain ⟨q', s', hkeeps', hanswer⟩ :=
      answer_of_obliging hw (b.taken c.path s) (ask w q f).1 f output
    have hreply : (ask w q f).2.2 = { outcome := .ok output } := houtput _ _ (by rw [← hf]; rfl)
    have hturn : b.turn w p =
        some ((b.taken c.path s).answer w (ask w q f).1 f (ask w q f).2.2) := by
      rw [turn, hnext]
    rw [hreply, hanswer] at hturn
    subst hf
    refine ⟨q', s', _, Project.refreshed_absorb hc hfits
      (((hkeeps.trans hasked).absorb c.path output _).trans hkeeps'), fun n hn =>
      List.mem_append_right _ (List.mem_map_of_mem hn), hturn⟩

end Turn

end Batch

end CodeGraph

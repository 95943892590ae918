import CodeGraph.Proofs.Update.Mirror

/-!
# The visits of a batch

A batch visits one file after the other. A visit takes the old data of the file out, and of the
place it was moved from, and puts in what the analyzer finds, up to the first failure.

* `Project.dropFiles`: the live graph without the data of several files.
* `Project.handle`, `Handling`: a whole visit, and what it did; `Batch.turn_eq_close`: every turn of
  a batch is one, unless it passes a path over.
* **`Project.handle_eq_ok`**: the live graph after a visit that succeeded.
* `References.Follows`, `Project.handle_follows`: a visit adds references from its own file only.
* `Visit`, `Project.visits`, **`Batch.runWithin_visits`**: all visits of a batch, in order.
* `Regime.any`: the projects that any batches lead to.
-/

namespace CodeGraph

open Std

/-! ## Dropping several files -/

namespace Project

/-- Takes everything out that the live graph holds for some files. -/
def dropFiles : List Path → Project → Project × List NodeId × List Edge
  | [], p => (p, [], [])
  | path :: rest, p =>
    let later := dropFiles rest (p.dropFile path).1
    (later.1, (p.dropFile path).2.nodes ++ later.2.1, (p.dropFile path).2.orphaned ++ later.2.2)

theorem Keeps.dropFile {p q : Project} (h : Keeps p q) (path : Path) :
    Keeps (p.dropFile path).1 (q.dropFile path).1 ∧
      (q.dropFile path).2 = (p.dropFile path).2 := by
  have hremoval : (q.dropFile path).2 = (p.dropFile path).2 := by
    simp only [Project.dropFile, h.store]
  refine ⟨⟨?_, ?_, h.root, h.cancelled⟩, hremoval⟩
  · simp only [Project.dropFile, h.store]
  · simp only [Project.dropFile, h.references]

theorem Keeps.dropFiles {p q : Project} (h : Keeps p q) (paths : List Path) :
    Keeps (p.dropFiles paths).1 (q.dropFiles paths).1 ∧
      (q.dropFiles paths).2 = (p.dropFiles paths).2 := by
  induction paths generalizing p q with
  | nil => exact ⟨h, rfl⟩
  | cons path paths ih =>
    obtain ⟨hkeeps, hremoval⟩ := h.dropFile path
    obtain ⟨hlater, hfound⟩ := ih hkeeps
    refine ⟨hlater, ?_⟩
    simp only [Project.dropFiles, hremoval, hfound]

theorem mem_nodes_dropFiles {p : Project} (h : p.store.Coherent) {paths : List Path} {i : NodeId} :
    i ∈ (p.dropFiles paths).2.1 ↔
      ∃ n, p.store.node? i = some n ∧ ∃ f ∈ paths, n.file.parts = f.parts := by
  induction paths generalizing p with
  | nil => simp [dropFiles]
  | cons path paths ih =>
    have hd := dropped_dropFile h path
    rw [dropFiles, List.mem_append, hd.mem_nodes, ih hd.coherent]
    simp only [hd.node?, List.mem_cons, exists_eq_or_imp]
    grind

end Project

namespace Batch

theorem removeStale_eq_ok {w : World} {paths : List Path} {p q : Project} {s s' : Summary}
    {found : List NodeId × List Edge} (h : removeStale w paths p s = (q, s', .ok found)) :
    Project.Keeps (p.dropFiles paths).1 q ∧ found = (p.dropFiles paths).2 := by
  induction paths generalizing p s q s' found with
  | nil =>
    simp only [removeStale, Prod.mk.injEq, Except.ok.injEq] at h
    obtain ⟨rfl, -, rfl⟩ := h
    exact ⟨.refl p, rfl⟩
  | cons path paths ih =>
    obtain ⟨q₁, s₁, hkeeps, ⟨e, hr⟩ | hr⟩ := p.removeFile_cases w s path
    · simp [removeStale, hr] at h
    · simp only [removeStale, hr] at h
      rcases hrest : removeStale w paths q₁ s₁ with ⟨q₂, s₂, e | found'⟩
      · simp [hrest] at h
      · simp only [hrest, Prod.mk.injEq, Except.ok.injEq] at h
        obtain ⟨rfl, -, rfl⟩ := h
        obtain ⟨hkeeps', rfl⟩ := ih hrest
        obtain ⟨hlater, hfound⟩ := hkeeps.dropFiles paths
        refine ⟨hlater.trans hkeeps', ?_⟩
        rw [hfound]
        rfl

theorem removeStale_drops (w : World) (paths : List Path) (p : Project) (s : Summary) :
    ∃ dropped, Project.Keeps (p.dropFiles dropped).1 (removeStale w paths p s).1 := by
  induction paths generalizing p s with
  | nil => exact ⟨[], .refl p⟩
  | cons path paths ih =>
    obtain ⟨q, s', hkeeps, ⟨e, hr⟩ | hr⟩ := p.removeFile_cases w s path
    · refine ⟨[path], ?_⟩
      rw [removeStale, hr]
      exact hkeeps
    · obtain ⟨dropped, hdropped⟩ := ih q s'
      have hlater := (hkeeps.dropFiles dropped).1.trans hdropped
      refine ⟨path :: dropped, ?_⟩
      rw [removeStale, hr]
      rcases hrest : removeStale w paths q s' with ⟨q', s'', e | found⟩
      · simp only [hrest] at hlater ⊢
        exact hlater
      · simp only [hrest] at hlater ⊢
        exact hlater

theorem next_drops (w : World) (b : Batch) (p : Project) :
    ∃ dropped, Project.Keeps (p.dropFiles dropped).1 (b.next w p).1 := by
  have hstart : ∀ (b : Batch) (c : Change) (cascaded : Bool),
      ∃ dropped, Project.Keeps (p.dropFiles dropped).1 (b.start w p c cascaded).1 := by
    intro b c cascaded
    obtain ⟨dropped, hdropped⟩ := removeStale_drops w (c.source?.toList ++ [c.path]) p b.summary
    refine ⟨dropped, ?_⟩
    unfold start
    revert hdropped
    rcases removeStale w (c.source?.toList ++ [c.path]) p b.summary with
      ⟨q, s, e | ⟨seed, orphaned⟩⟩
    · exact fun hdropped => hdropped.trans (.publish _ _)
    · intro hdropped
      dsimp only
      split <;> exact hdropped
  unfold next
  split
  · exact ⟨[], .refl p⟩
  · split
    · exact ⟨[], .refl p⟩
    · split
      · exact ⟨[], .refl p⟩
      · exact hstart _ _ _

end Batch

/-! ## A whole visit -/

/-- What a visit did: the declarations that went, and the output that came. -/
structure Handling where
  removed : List NodeId
  output : Output := {}

/-- The declarations through which a visit pulls other files in. -/
def Handling.seed (h : Handling) : List NodeId := h.removed ++ h.output.nodes.map Node.id

/-- The places whose data a change makes stale. -/
def Change.places (c : Change) : List Path := c.source?.toList ++ [c.path]

namespace Project

/-- Goes on with the answer of the analyzer. -/
def respond (w : World) (p : Project) (s : Summary) (f : InFlight) (reply : Reply) :
    Project × Summary × Except Error Handling :=
  let p := if reply.cancels then p.cancel else p
  match reply.outcome with
  | .error cause => (p, s, .error (.analysis f.change.path cause))
  | .ok output =>
    match p.integrate w s f.change.path output f.orphaned with
    | (p, s, .error e) => (p, s, .error e)
    | (p, s, .ok ()) => (p, s, .ok { removed := f.seed, output })

/-- Handles a change from beginning to end. -/
def handle (w : World) (p : Project) (s : Summary) (c : Change) :
    Project × Summary × Except Error Handling :=
  match Batch.removeStale w c.places p s with
  | (p, s, .error e) => (p, s, .error e)
  | (p, s, .ok (removed, orphaned)) =>
    if c.isDeletion then (p, s, .ok { removed })
    else
      let f : InFlight := ⟨c, false, removed, orphaned⟩
      (Batch.ask w p f).1.respond w s f (Batch.ask w p f).2.2

theorem respond_cases (w : World) (p : Project) (s : Summary) (f : InFlight) (reply : Reply) :
    ∃ q s', (q.store = p.store ∧ q.references = p.references ∧
        ∃ e, p.respond w s f reply = (q, s', .error e)) ∨
      ∃ output, reply.outcome = .ok output ∧
        q.store = integrated p.store f.change.path output f.orphaned ∧
        q.references = recordEdges p.references f.change.path
          (output.edges.map (ownEdge f.change.path)) ∧
        ((∃ e, p.respond w s f reply = (q, s', .error e)) ∨
          p.respond w s f reply = (q, s', .ok { removed := f.seed, output })) := by
  unfold respond
  dsimp only
  generalize hp : (if reply.cancels then p.cancel else p) = p₁
  have hstore : p₁.store = p.store := by
    rw [← hp]
    split <;> rfl
  have hreferences : p₁.references = p.references := by
    rw [← hp]
    split <;> rfl
  cases reply.outcome with
  | error cause => exact ⟨p₁, s, .inl ⟨hstore, hreferences, _, rfl⟩⟩
  | ok output =>
    obtain ⟨q, s', hk, hi⟩ := p₁.integrate_cases w s f.change.path output f.orphaned
    refine ⟨q, s', .inr ⟨output, rfl, ?_, ?_, ?_⟩⟩
    · rw [hk.store, store_absorb, hstore]
    · rw [hk.references, ← hreferences]
      rfl
    · rcases hi with ⟨e, hi⟩ | hi
      · exact .inl ⟨e, by simp only [hi]⟩
      · exact .inr (by simp only [hi])

/-- **A visit that succeeded** dropped the places of its change, and took an output in unless the
file is gone. -/
theorem handle_eq_ok {w : World} {p q : Project} {s s' : Summary} {c : Change} {h : Handling}
    (hh : p.handle w s c = (q, s', .ok h)) :
    h.removed = (p.dropFiles c.places).2.1 ∧
      if c.isDeletion then h.output = {} ∧ q.store = (p.dropFiles c.places).1.store ∧
        q.references = (p.dropFiles c.places).1.references
      else
        q.store = integrated (p.dropFiles c.places).1.store c.path h.output
          (p.dropFiles c.places).2.2 ∧
        q.references = recordEdges (p.dropFiles c.places).1.references c.path
          (h.output.edges.map (ownEdge c.path)) := by
  unfold handle at hh
  rcases hstale : Batch.removeStale w c.places p s with ⟨q₁, s₁, e | ⟨removed, orphaned⟩⟩
  · simp [hstale] at hh
  · obtain ⟨hkeeps, hfound⟩ := Batch.removeStale_eq_ok hstale
    simp only [hstale] at hh
    rw [← hfound, ← hkeeps.store, ← hkeeps.references]
    by_cases hdel : c.isDeletion = true
    · rw [if_pos hdel] at hh ⊢
      simp only [Prod.mk.injEq, Except.ok.injEq] at hh
      obtain ⟨rfl, -, rfl⟩ := hh
      exact ⟨rfl, rfl, rfl, rfl⟩
    · rw [if_neg hdel] at hh ⊢
      generalize hf : InFlight.mk c false removed orphaned = f at hh
      obtain ⟨q₂, s₂, ⟨-, -, e, hr⟩ | ⟨output, -, hstore, hreferences, ⟨e, hr⟩ | hr⟩⟩ :=
        (Batch.ask w q₁ f).1.respond_cases w s₁ f (Batch.ask w q₁ f).2.2
      · simp [hr] at hh
      · simp [hr] at hh
      · simp only [hr, Prod.mk.injEq, Except.ok.injEq] at hh
        obtain ⟨rfl, -, rfl⟩ := hh
        subst hf
        exact ⟨rfl, hstore, hreferences⟩

end Project

namespace Batch

/-- The batch after a visit: files that refer to a changed declaration are pulled in, or a failure
is noted. -/
def close (b : Batch) (c : Change) (cascaded : Bool) :
    Project × Summary × Except Error Handling → Project × Batch
  | (p, s, .ok h) => (p, b.advance c.path cascaded s p.references h.seed)
  | (p, s, .error e) => (b.taken c.path s).fail p c.path e

theorem answer_eq_respond (w : World) (b : Batch) (p : Project) (f : InFlight) (reply : Reply) :
    b.answer w p f reply =
      match p.respond w b.summary f reply with
      | (p, s, .ok h) =>
        (p, { b with summary := s }.succeed p.references f.change.path f.cascaded h.seed)
      | (p, s, .error e) => { b with summary := s }.fail p f.change.path e := by
  unfold answer Project.respond
  dsimp only
  cases reply.outcome with
  | error cause => rfl
  | ok output =>
    dsimp only
    rcases Project.integrate w _ b.summary f.change.path output f.orphaned with ⟨q, s, e | _⟩ <;>
      rfl

section Turn

variable {w : World} {b : Batch} {p : Project} {c : Change} {cascaded : Bool}
  {rest : List (Change × Bool)} (hqueue : b.queue = (c, cascaded) :: rest)
  (hcancel : p.cancelled = false) (hnew : c.path.parts ∉ b.processed)
include hqueue hcancel hnew

/-- **A turn is a visit**, with what follows from it for the batch. -/
theorem turn_eq_close :
    b.turn w p = some (b.close c cascaded (p.handle w b.summary c)) := by
  have hcontains : b.processed.contains c.path.parts = false := by
    rw [← Bool.not_eq_true, ExtTreeSet.contains_iff_mem]
    exact hnew
  have htail : b.queue.tail = rest := by rw [hqueue]; rfl
  unfold turn next Project.handle
  simp only [hqueue, hcancel, hcontains, Bool.false_eq_true, if_false, start, Change.places]
  rcases removeStale w (c.source?.toList ++ [c.path]) p b.summary with
    ⟨q, s, e | ⟨seed, orphaned⟩⟩
  · simp only [close, fail, taken, htail]
  · by_cases hdel : c.isDeletion = true
    · simp only [hdel, if_true, close, advance, taken, htail, Handling.seed, List.map_nil,
        List.append_nil]
    · -- Whether the file was pulled in plays no part up to the end of the visit.
      have hask : ask w q ⟨c, cascaded, seed, orphaned⟩ = ask w q ⟨c, false, seed, orphaned⟩ := rfl
      have hrespond : ∀ q s reply, Project.respond w q s ⟨c, cascaded, seed, orphaned⟩ reply =
          Project.respond w q s ⟨c, false, seed, orphaned⟩ reply := fun _ _ _ => rfl
      simp only [hdel, Bool.false_eq_true, if_false, answer_eq_respond, hask, hrespond]
      rcases Project.respond w _ s _ _ with ⟨q', s', e | h⟩
      · simp only [close, fail, taken, htail]
      · simp only [close, advance, taken, htail]

end Turn

theorem turn_eq_none_iff {w : World} {b : Batch} {p : Project} :
    b.turn w p = none ↔ b.queue = [] ∨ p.cancelled = true := by
  rcases hqueue : b.queue with _ | ⟨⟨c, cascaded⟩, rest⟩
  · simp [turn, next, hqueue]
  · cases hcancel : p.cancelled with
    | true => simp [turn, next, hqueue, hcancel]
    | false =>
      by_cases hold : c.path.parts ∈ b.processed
      · simp [turn_skips hqueue hcancel hold]
      · simp [turn_eq_close hqueue hcancel hold]

end Batch

/-! ## The references after a visit -/

/-- Nothing refers anew, except for one file. -/
structure References.Follows (path : Path) (r r' : References) : Prop where
  keeps : r.Mutual → r'.Mutual
  mem_targets : ∀ {t k}, t ∈ Index.bucket r'.targets k →
    k = path.parts ∨ t ∈ Index.bucket r.targets k

theorem References.Follows.trans {path : Path} {r r' r'' : References} (h : Follows path r r')
    (h' : Follows path r' r'') : Follows path r r'' where
  keeps hr := h'.keeps (h.keeps hr)
  mem_targets ht := (h'.mem_targets ht).elim .inl h.mem_targets

namespace Project

theorem dropFiles_follows (path : Path) (paths : List Path) (p : Project) :
    References.Follows path p.references (p.dropFiles paths).1.references := by
  induction paths generalizing p with
  | nil => exact ⟨id, .inr⟩
  | cons f paths ih =>
    have hdrop : References.Follows path p.references (p.dropFile f).1.references :=
      ⟨fun hr => hr.removeFile f, fun ht => .inr (References.mem_targets_removeFile.1 ht).2⟩
    exact hdrop.trans (ih _)

theorem recordEdges_follows (r : References) (path : Path) (edges : List Edge) :
    References.Follows path r (recordEdges r path edges) where
  keeps hr := mutual_recordEdges hr path edges
  mem_targets ht := (mem_targets_recordEdges.1 ht).imp_left And.left

/-- The live graph after a visit, also one that failed: some files were dropped, and an output may
have been taken in. -/
theorem handle_cases (w : World) (p : Project) (s : Summary) (c : Change) :
    ∃ dropped, ((p.handle w s c).1.store = (p.dropFiles dropped).1.store ∧
        (p.handle w s c).1.references = (p.dropFiles dropped).1.references) ∨
      ∃ output orphaned,
        (p.handle w s c).1.store =
          integrated (p.dropFiles dropped).1.store c.path output orphaned ∧
        (p.handle w s c).1.references =
          recordEdges (p.dropFiles dropped).1.references c.path
            (output.edges.map (ownEdge c.path)) := by
  obtain ⟨dropped, hkeeps⟩ := Batch.removeStale_drops w c.places p s
  refine ⟨dropped, ?_⟩
  rw [← hkeeps.store, ← hkeeps.references]
  unfold handle
  rcases Batch.removeStale w c.places p s with ⟨q, s', e | ⟨removed, orphaned⟩⟩
  · exact .inl ⟨rfl, rfl⟩
  · dsimp only
    split
    · exact .inl ⟨rfl, rfl⟩
    · generalize hf : InFlight.mk c false removed orphaned = f
      have hpath : f.change.path = c.path := by rw [← hf]
      obtain ⟨q₁, s₁, ⟨hstore, hreferences, e, hr⟩ | ⟨output, -, hstore, hreferences, hr⟩⟩ :=
        (Batch.ask w q f).1.respond_cases w s' f (Batch.ask w q f).2.2
      · rw [hr]
        exact .inl ⟨hstore, hreferences⟩
      · rw [hpath] at hstore hreferences
        rcases hr with ⟨e, hr⟩ | hr
        · rw [hr]
          exact .inr ⟨output, _, hstore, hreferences⟩
        · rw [hr]
          exact .inr ⟨output, _, hstore, hreferences⟩

theorem handle_follows (w : World) (p : Project) (s : Summary) (c : Change) :
    References.Follows c.path p.references (p.handle w s c).1.references := by
  obtain ⟨dropped, ⟨-, hreferences⟩ | ⟨output, orphaned, -, hreferences⟩⟩ := p.handle_cases w s c
  · rw [hreferences]
    exact dropFiles_follows c.path dropped p
  · rw [hreferences]
    exact (dropFiles_follows c.path dropped p).trans (recordEdges_follows _ c.path _)

end Project

/-! ## All visits -/

/-- A file that was visited in a batch. -/
structure Visit where
  change : Change
  /-- Whether the file was pulled in. -/
  cascaded : Bool
  before : Moment
  after : Moment
  result : Except Error Handling

namespace Batch

/-- A visit, with what comes of it. -/
def visit (w : World) (b : Batch) (p : Project) (c : Change) (cascaded : Bool) : Visit :=
  let outcome := p.handle w b.summary c
  let closed := b.close c cascaded outcome
  ⟨c, cascaded, ⟨p, b, none⟩, ⟨closed.1, closed.2, none⟩, outcome.2.2⟩

/-- The visit that comes next, if the batch goes on with one. -/
def visit? (w : World) (b : Batch) (p : Project) : Option Visit :=
  match b.queue with
  | [] => none
  | (c, cascaded) :: _ =>
    if p.cancelled || b.processed.contains c.path.parts then none
    else some (b.visit w p c cascaded)

/-- The visits of a run; `fuel` bounds the number of turns. -/
def visitsWithin (w : World) : (fuel : Nat) → Batch → Project → List Visit
  | 0, _, _ => []
  | fuel + 1, b, p =>
    match b.turn w p with
    | none => []
    | some (p', b') => (b.visit? w p).toList ++ visitsWithin w fuel b' p'

section Turn

variable {w : World} {b : Batch} {p : Project} {c : Change} {cascaded : Bool}
  {rest : List (Change × Bool)} (hqueue : b.queue = (c, cascaded) :: rest)
include hqueue

theorem visit?_eq_some (hcancel : p.cancelled = false) (hnew : c.path.parts ∉ b.processed) :
    b.visit? w p = some (b.visit w p c cascaded) := by
  have hcontains : b.processed.contains c.path.parts = false := by
    rw [← Bool.not_eq_true, ExtTreeSet.contains_iff_mem]
    exact hnew
  simp [visit?, hqueue, hcancel, hcontains]

end Turn

/-- **What every turn keeps holds at the end of a run**, of the visits of the run. -/
theorem runWithin_visits {w : World} {I : List Visit → Project → Batch → Prop}
    {m : Project → Batch → Nat}
    (hturn : ∀ {past p b p' b'}, I past p b → b.turn w p = some (p', b') →
      I (past ++ (b.visit? w p).toList) p' b' ∧ m p' b' < m p b)
    {fuel : Nat} {past : List Visit} {p : Project} {b : Batch} (h : I past p b)
    (hfuel : m p b < fuel) :
    ∃ p' b', I (past ++ b.visitsWithin w fuel p) p' b' ∧ b'.turn w p' = none ∧
      runWithin w (fun _ => false) fuel b p = ((b'.next w p').1, (b'.next w p').2.1, .ended) := by
  induction fuel generalizing past p b with
  | zero => omega
  | succ fuel ih =>
    rw [runWithin_eq_turn, visitsWithin]
    cases ht : b.turn w p with
    | none => exact ⟨p, b, by simpa using h, ht, rfl⟩
    | some next =>
      obtain ⟨hI, hlt⟩ := hturn h ht
      obtain ⟨p', b', hlast, hend, hrun⟩ := ih hI (by omega)
      exact ⟨p', b', by simpa only [List.append_assoc] using hlast, hend, hrun⟩

end Batch

/-- The visits of a batch of changes. -/
def Project.visits (w : World) (p : Project) (changes : List Change) (cascade : Bool) :
    List Visit :=
  let (p, b) := p.begin changes cascade
  b.visitsWithin w (b.bound p) p

/-! ## Reachable projects -/

/-- The indices of the live graph describe it, and the two sides of the references agree. -/
structure Project.Consistent (p : Project) : Prop where
  coherent : p.store.Coherent
  referring : p.references.Mutual

namespace Project.Consistent

theorem congr {p q : Project} (h : p.Consistent) (hstore : q.store = p.store)
    (hreferences : q.references = p.references) : q.Consistent :=
  ⟨hstore ▸ h.coherent, hreferences ▸ h.referring⟩

theorem dropFiles {p : Project} (h : p.Consistent) (paths : List Path) :
    (p.dropFiles paths).1.Consistent := by
  induction paths generalizing p with
  | nil => exact h
  | cons path paths ih =>
    have hdropped := dropped_dropFile h.coherent path
    exact ih ⟨hdropped.coherent, h.referring.removeFile path⟩

theorem integrated {p q : Project} (h : p.Consistent) {path : Path} {output : Output}
    {orphaned : List Edge} (hstore : q.store = Project.integrated p.store path output orphaned)
    (hreferences : q.references =
      recordEdges p.references path (output.edges.map (ownEdge path))) : q.Consistent :=
  ⟨hstore ▸ coherent_integrated h.coherent path output orphaned,
    hreferences ▸ mutual_recordEdges h.referring path _⟩

theorem respond {p : Project} (h : p.Consistent) (w : World) (s : Summary) (f : InFlight)
    (reply : Reply) : (p.respond w s f reply).1.Consistent := by
  obtain ⟨q, s', ⟨hstore, hreferences, e, hr⟩ | ⟨output, -, hstore, hreferences, hr⟩⟩ :=
    p.respond_cases w s f reply
  · rw [hr]
    exact h.congr hstore hreferences
  · rcases hr with ⟨e, hr⟩ | hr
    · rw [hr]
      exact h.integrated hstore hreferences
    · rw [hr]
      exact h.integrated hstore hreferences

theorem answer {p : Project} (h : p.Consistent) (w : World) (b : Batch) (f : InFlight)
    (reply : Reply) : (b.answer w p f reply).1.Consistent := by
  have hrespond := h.respond w b.summary f reply
  rw [Batch.answer_eq_respond]
  revert hrespond
  rcases p.respond w b.summary f reply with ⟨q, s, e | found⟩
  · exact fun hq => hq.congr rfl rfl
  · exact id

theorem handle {p : Project} (h : p.Consistent) (w : World) (s : Summary) (c : Change) :
    (p.handle w s c).1.Consistent := by
  obtain ⟨dropped, ⟨hstore, hreferences⟩ | ⟨output, orphaned, hstore, hreferences⟩⟩ :=
    p.handle_cases w s c
  · exact (h.dropFiles dropped).congr hstore hreferences
  · exact (h.dropFiles dropped).integrated hstore hreferences

end Project.Consistent

theorem References.mutual_recordEdges {r : References} (h : r.Mutual) (edges : List Edge) :
    (r.recordEdges edges).Mutual := by
  unfold recordEdges
  induction edges generalizing r with
  | nil => exact h
  | cons e edges ih =>
    rw [List.foldl_cons]
    split
    · split
      · exact ih h
      · exact ih (h.record _ _)
    · exact ih h

theorem Moment.Step.consistent {w : World} {m m' : Moment} (hs : Step w m m')
    (h : m.project.Consistent) : m'.project.Consistent := by
  have hnext : ∀ {p p' : Project} {b b' : Batch} {progress : Progress},
      b.next w p = (p', b', progress) → p.Consistent → p'.Consistent := by
    intro p p' b b' progress hn hp
    obtain ⟨dropped, hkeeps⟩ := b.next_drops w p
    rw [hn] at hkeeps
    exact (hp.dropFiles dropped).congr hkeeps.store hkeeps.references
  cases hs with
  | finished hn => exact hnext hn h
  | handled hn => exact hnext hn h
  | asked hn => exact (hnext hn h).congr rfl rfl
  | @answered p b f reply => exact h.answer w b f reply
  | cancelled => exact Project.Consistent.congr h rfl rfl

theorem Moment.Steps.consistent {w : World} {m m' : Moment} (hs : Steps w m m')
    (h : m.project.Consistent) : m'.project.Consistent := by
  induction hs with
  | refl => exact h
  | tail _ hs ih => exact hs.consistent ih

/-- The course of a project under any collaborators, from nothing or from a stored graph. -/
def Regime.any : Regime where
  starts p := p.Fresh ∨ p.Hydrated
  world _ := True

theorem Regime.Live.consistent {p : Project} (h : Regime.any.Live p) : p.Consistent := by
  refine h.invariant (I := Project.Consistent) (J := fun m => m.project.Consistent) ?_ ?_ ?_ ?_ ?_
  · rintro p (⟨hstore, hreferences, -⟩ | ⟨w, q, ops, -, hp⟩)
    · exact ⟨hstore ▸ Store.coherent_empty, hreferences ▸ References.mutual_empty⟩
    · obtain ⟨d, r, -, rfl⟩ := Project.hydrate_eq_ok hp
      exact ⟨Store.coherent_ofSnapshot _,
        References.mutual_recordEdges References.mutual_empty _⟩
  · exact fun p task _ hp => hp.congr rfl rfl
  · exact fun w m m' _ hs hm => hs.consistent hm
  · exact fun m hm => hm
  · intro w m hm
    have hkeeps := Project.keeps_finish w m.project m.batch
    exact hm.congr hkeeps.store hkeeps.references

end CodeGraph

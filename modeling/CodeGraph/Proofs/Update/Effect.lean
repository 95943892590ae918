import CodeGraph.Proofs.Update.Ending

/-!
# What a step of a batch can do

A step takes the next file and removes what is held for it, or goes on with the answer of the
analyzer. Either way the file is updated, has failed, or is still awaited. The repository is called
on the way, and may refuse, but it sees nothing of the project and changes nothing in it.

* `Project.call_apart`, `Project.removeStale_apart`, `Project.respond_apart`: what the work on a
  file leaves alone.
* `Moment.Effect`, **`Moment.Step.effect`**: the effects of a step, each with what led to it.
* `Batch.next_eq_finished`: how a batch ends.
* `Batch.summary_succeed`: the summary once a file was updated.
-/

namespace CodeGraph

/-! ## What a call of the repository leaves alone -/

namespace Project

section Apart

variable {α : Type} {g : Project → α}
  (hg : ∀ (p : Project) d r n, g { p with disk := d, repository := r, calls := n } = g p)
  (w : World) (p : Project)
include hg

theorem call_apart (c : Call) {f : Project → Project × Except Cause Unit}
    (hf : ∀ p, g (f p).1 = g p) : g (p.call w c f).1 = g p := by
  have hasked : g { p with calls := p.calls + 1 } = g p := hg p p.disk p.repository _
  unfold call
  cases w.refusal? p.calls c with
  | some message => exact hasked
  | none => exact (hf _).trans hasked

theorem call_change_apart (c : Call) (f : Repository → Repository) :
    g (p.call w c (change f)).1 = g p :=
  call_apart hg w p c fun p => hg p p.disk (f p.repository) p.calls

theorem forgetFile_apart (path : Path) : g (p.forgetFile w path).1 = g p := by
  have hnodes := call_change_apart hg w p (.deleteNodes path) fun r => (r.deleteNodesByFile path).1
  unfold forgetFile
  revert hnodes
  rcases p.call w (.deleteNodes path) _ with ⟨q, e | _⟩
  · exact id
  · exact fun hnodes => (call_change_apart hg w q (.deleteEdges path) _).trans hnodes

theorem saveOutput_apart (nodes : List Node) (edges : List Edge) :
    g (p.saveOutput w nodes edges).1 = g p := by
  have hnodes := call_change_apart hg w p .saveNodes (·.saveNodes nodes)
  unfold saveOutput
  revert hnodes
  rcases p.call w .saveNodes _ with ⟨q, e | _⟩
  · exact id
  · exact fun hnodes => (call_change_apart hg w q .saveEdges _).trans hnodes

theorem removeFile_apart (s : Summary) (path : Path) :
    g (p.removeFile w s path).1 = g (p.dropFile path).1 := by
  unfold removeFile
  dsimp only
  generalize hforget : forgetFile w _ _ = forgotten
  have hsame : g forgotten.1 = g (p.dropFile path).1 := hforget ▸ forgetFile_apart hg w _ path
  rcases forgotten with ⟨q, e | _⟩
  · exact hsame
  · exact hsame

theorem integrate_apart (s : Summary) (path : Path) (output : Output) (orphaned : List Edge) :
    g (p.integrate w s path output orphaned).1 = g (p.absorb path output orphaned) := by
  unfold integrate
  dsimp only
  generalize hsave : saveOutput w _ _ _ = saved
  have hsame : g saved.1 = g (p.absorb path output orphaned) :=
    hsave ▸ saveOutput_apart hg w _ _ _
  rcases saved with ⟨q, e | _⟩
  · exact hsame
  · exact hsame

theorem removeStale_apart (hdrop : ∀ (p : Project) path, g (p.dropFile path).1 = g p)
    (paths : List Path) (s : Summary) : g (Batch.removeStale w paths p s).1 = g p := by
  induction paths generalizing p s with
  | nil => rfl
  | cons path paths ih =>
    have hfile := (removeFile_apart hg w p s path).trans (hdrop p path)
    rw [Batch.removeStale]
    rcases hr : p.removeFile w s path with ⟨q, s', e | removal⟩
    · rwa [hr] at hfile
    · rw [hr] at hfile
      have hrest := (ih q s').trans hfile
      dsimp only
      rcases hstale : Batch.removeStale w paths q s' with ⟨q', s'', e | found⟩
      · rwa [hstale] at hrest
      · rwa [hstale] at hrest

theorem respond_apart (hcancel : ∀ p : Project, g p.cancel = g p)
    (habsorb : ∀ (p : Project) path output orphaned, g (p.absorb path output orphaned) = g p)
    (s : Summary) (f : InFlight) (reply : Reply) : g (p.respond w s f reply).1 = g p := by
  have hsame : g (if reply.cancels then p.cancel else p) = g p := by
    split
    · exact hcancel p
    · rfl
  unfold respond
  dsimp only
  rw [← hsame]
  generalize (if reply.cancels then p.cancel else p) = q
  cases reply.outcome with
  | error cause => rfl
  | ok output =>
    have hq := (integrate_apart hg w q s f.change.path output f.orphaned).trans (habsorb q _ _ _)
    dsimp only
    rcases hi : q.integrate w s f.change.path output f.orphaned with ⟨q', s', e | _⟩
    · rwa [hi] at hq
    · rwa [hi] at hq

end Apart

end Project

/-! ## Steps -/

namespace Moment

/-- What a step does to the project and the batch. -/
inductive Effect (w : World) : Moment → Moment → Prop
  /-- There is no file left. -/
  | drained {p b} (hqueue : b.queue = []) : Effect w ⟨p, b, none⟩ ⟨p, b, none⟩
  /-- The batch stops before the next file. -/
  | stopped {p b c cascaded rest} (hqueue : b.queue = (c, cascaded) :: rest)
      (hcancel : p.cancelled = true) :
    Effect w ⟨p, b, none⟩
      ⟨p, { b with queue := rest, summary := { b.summary with cancelled := true } }, none⟩
  /-- A path that was taken before is passed over. -/
  | passed {p b c cascaded rest} (hqueue : b.queue = (c, cascaded) :: rest)
      (hcancel : p.cancelled = false) (hold : c.path.parts ∈ b.processed) :
    Effect w ⟨p, b, none⟩ ⟨p, { b with queue := rest }, none⟩
  /-- The old data of the next file cannot be removed. -/
  | refused {p b c cascaded rest q s e} (hqueue : b.queue = (c, cascaded) :: rest)
      (hcancel : p.cancelled = false) (hnew : c.path.parts ∉ b.processed)
      (hstale : Batch.removeStale w c.places p b.summary = (q, s, .error e)) :
    Effect w ⟨p, b, none⟩
      ⟨((b.taken c.path s).fail q c.path e).1, ((b.taken c.path s).fail q c.path e).2, none⟩
  /-- The next file is gone. -/
  | gone {p b c cascaded rest q s seed orphaned} (hqueue : b.queue = (c, cascaded) :: rest)
      (hcancel : p.cancelled = false) (hnew : c.path.parts ∉ b.processed)
      (hstale : Batch.removeStale w c.places p b.summary = (q, s, .ok (seed, orphaned)))
      (hdel : c.isDeletion = true) :
    Effect w ⟨p, b, none⟩
      ⟨q, (b.taken c.path s).succeed q.references c.path cascaded seed, none⟩
  /-- The analyzer is asked about the next file. -/
  | asked {p b c cascaded rest q s seed orphaned} (hqueue : b.queue = (c, cascaded) :: rest)
      (hcancel : p.cancelled = false) (hnew : c.path.parts ∉ b.processed)
      (hstale : Batch.removeStale w c.places p b.summary = (q, s, .ok (seed, orphaned)))
      (hdel : c.isDeletion = false) :
    Effect w ⟨p, b, none⟩
      ⟨(Batch.ask w q ⟨c, cascaded, seed, orphaned⟩).1, b.taken c.path s,
        some (⟨c, cascaded, seed, orphaned⟩, (Batch.ask w q ⟨c, cascaded, seed, orphaned⟩).2.2)⟩
  /-- The analysis fails, or cannot be stored. -/
  | failed {p b f reply q s e} (hrespond : p.respond w b.summary f reply = (q, s, .error e)) :
    Effect w ⟨p, b, some (f, reply)⟩
      ⟨({ b with summary := s }.fail q f.change.path e).1,
        ({ b with summary := s }.fail q f.change.path e).2, none⟩
  /-- The analysis is taken in. -/
  | answered {p b f reply q s h} (hrespond : p.respond w b.summary f reply = (q, s, .ok h)) :
    Effect w ⟨p, b, some (f, reply)⟩
      ⟨q, { b with summary := s }.succeed q.references f.change.path f.cascaded h.seed, none⟩
  /-- Somebody asks the batch to stop. -/
  | cancelled {p b awaited} : Effect w ⟨p, b, awaited⟩ ⟨p.cancel, b, awaited⟩

end Moment

/-- The summary once a file was updated. -/
def Summary.withUpdated (s : Summary) (path : Path) (cascaded : Bool) : Summary :=
  { s with
    updatedFiles := s.updatedFiles ++ [path]
    cascadedFiles := s.cascadedFiles ++ (if cascaded then [path] else []) }

namespace Batch

theorem summary_succeed (b : Batch) (r : References) (path : Path) (cascaded : Bool)
    (seed : List NodeId) :
    (b.succeed r path cascaded seed).summary = b.summary.withUpdated path cascaded := by
  unfold succeed
  dsimp only
  split <;> rfl

variable {w : World} {b : Batch} {p : Project}

theorem start_cases {c : Change} {cascaded : Bool} {rest : List (Change × Bool)}
    (hqueue : b.queue = (c, cascaded) :: rest) :
    let taken := { b with queue := rest, processed := b.processed.insert c.path.parts }
    (∃ q s e, removeStale w c.places p b.summary = (q, s, .error e) ∧
      taken.start w p c cascaded = (((b.taken c.path s).fail q c.path e).1,
        ((b.taken c.path s).fail q c.path e).2, .handled)) ∨
    ∃ q s seed orphaned, removeStale w c.places p b.summary = (q, s, .ok (seed, orphaned)) ∧
      (c.isDeletion = true ∧ taken.start w p c cascaded =
          (q, (b.taken c.path s).succeed q.references c.path cascaded seed, .handled) ∨
        c.isDeletion = false ∧ taken.start w p c cascaded =
          (q, b.taken c.path s, .awaits ⟨c, cascaded, seed, orphaned⟩)) := by
  have htail : b.queue.tail = rest := by rw [hqueue]; rfl
  simp only [start, taken, htail, Change.places]
  rcases removeStale w (c.source?.toList ++ [c.path]) p b.summary with
    ⟨q, s, e | ⟨seed, orphaned⟩⟩
  · exact .inl ⟨q, s, e, rfl, rfl⟩
  · refine .inr ⟨q, s, seed, orphaned, rfl, ?_⟩
    by_cases hdel : c.isDeletion = true
    · exact .inl ⟨hdel, if_pos hdel⟩
    · exact .inr ⟨Bool.eq_false_iff.2 hdel, if_neg hdel⟩

theorem next_cases (w : World) (b : Batch) (p : Project) :
    (b.queue = [] ∧ b.next w p = (p, b, .finished)) ∨
    ∃ c cascaded rest, b.queue = (c, cascaded) :: rest ∧
      (p.cancelled = true ∧ b.next w p =
          (p, { b with queue := rest, summary := { b.summary with cancelled := true } },
            .finished) ∨
        p.cancelled = false ∧
          (c.path.parts ∈ b.processed ∧ b.next w p = (p, { b with queue := rest }, .handled) ∨
            c.path.parts ∉ b.processed ∧ b.next w p =
              { b with queue := rest, processed := b.processed.insert c.path.parts }.start w p c
                cascaded)) := by
  rcases hqueue : b.queue with _ | ⟨⟨c, cascaded⟩, rest⟩
  · exact .inl ⟨rfl, by simp only [next, hqueue]⟩
  · refine .inr ⟨c, cascaded, rest, rfl, ?_⟩
    simp only [next, hqueue]
    by_cases hcancel : p.cancelled = true
    · exact .inl ⟨hcancel, if_pos hcancel⟩
    · rw [if_neg hcancel]
      refine .inr ⟨Bool.eq_false_iff.2 hcancel, ?_⟩
      by_cases hold : c.path.parts ∈ b.processed
      · exact .inl ⟨hold, if_pos (Std.ExtTreeSet.contains_iff_mem.2 hold)⟩
      · exact .inr ⟨hold, if_neg fun h => hold (Std.ExtTreeSet.contains_iff_mem.1 h)⟩

/-- A batch ends with an empty queue, or because it was stopped. -/
theorem next_eq_finished {q : Project} {c : Batch} (h : b.next w p = (q, c, .finished)) :
    c.queue = [] ∨ c.summary.cancelled = true := by
  obtain ⟨hqueue, hn⟩ | ⟨d, cascaded, rest, hqueue, ⟨-, hn⟩ | ⟨-, ⟨-, hn⟩ | ⟨-, hn⟩⟩⟩ :=
    b.next_cases w p
  · rw [hn] at h
    cases h
    exact .inl hqueue
  · rw [hn] at h
    cases h
    exact .inr rfl
  · rw [hn] at h
    cases h
  · rw [hn] at h
    obtain ⟨q', s, e, -, hs⟩ | ⟨q', s, seed, orphaned, -, ⟨-, hs⟩ | ⟨-, hs⟩⟩ :=
      start_cases (w := w) (p := p) hqueue <;>
    · rw [hs] at h
      cases h

end Batch

namespace Moment

/-- The moment after a file was worked on up to its analysis. -/
def afterNext (w : World) : Project × Batch × Progress → Moment
  | (p, b, .awaits f) => ⟨(Batch.ask w p f).1, b, some (f, (Batch.ask w p f).2.2)⟩
  | (p, b, _) => ⟨p, b, none⟩

theorem step_afterNext (w : World) (b : Batch) (p : Project) :
    Step w ⟨p, b, none⟩ (afterNext w (b.next w p)) := by
  rcases h : b.next w p with ⟨q, c, _ | _ | f⟩
  · exact .finished h
  · exact .handled h
  · exact .asked h

theorem effect_next (w : World) (b : Batch) (p : Project) :
    Effect w ⟨p, b, none⟩ (afterNext w (b.next w p)) := by
  obtain ⟨hqueue, hn⟩ |
    ⟨c, cascaded, rest, hqueue, ⟨hcancel, hn⟩ | ⟨hcancel, ⟨hold, hn⟩ | ⟨hnew, hn⟩⟩⟩ :=
    b.next_cases w p
  · rw [hn]
    exact .drained hqueue
  · rw [hn]
    exact .stopped hqueue hcancel
  · rw [hn]
    exact .passed hqueue hcancel hold
  · rw [hn]
    obtain ⟨q, s, e, hstale, hs⟩ | ⟨q, s, seed, orphaned, hstale, ⟨hdel, hs⟩ | ⟨hdel, hs⟩⟩ :=
      Batch.start_cases (w := w) (p := p) hqueue
    · rw [hs]
      exact .refused hqueue hcancel hnew hstale
    · rw [hs]
      exact .gone hqueue hcancel hnew hstale hdel
    · rw [hs]
      exact .asked hqueue hcancel hnew hstale hdel

/-- **Every step has one of the effects.** -/
theorem Step.effect {w : World} {m m' : Moment} (hs : Step w m m') : Effect w m m' := by
  cases hs with
  | @finished p b p' b' h =>
    have heffect := effect_next w b p
    rwa [h] at heffect
  | @handled p b p' b' h =>
    have heffect := effect_next w b p
    rwa [h] at heffect
  | @asked p b p' b' f h =>
    have heffect := effect_next w b p
    rwa [h] at heffect
  | @answered p b f reply =>
    rw [Batch.answer_eq_respond]
    rcases hr : p.respond w b.summary f reply with ⟨q, s, e | found⟩
    · exact .failed hr
    · exact .answered hr
  | cancelled => exact .cancelled

end Moment

end CodeGraph

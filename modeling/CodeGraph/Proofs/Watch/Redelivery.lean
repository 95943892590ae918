import CodeGraph.Proofs.Watch.Deadline
import CodeGraph.Update.Batch

/-!
# A batch goes out again unchanged

A batch that could not be delivered is put back and settled anew, and applying a batch settles it
once more. What was settled is orderly, and orderly changes settle to themselves; so the batch is
the same each time, whether it goes back or is applied.

* `Debouncer.flush_requeue`, `Debouncer.poll_requeue`: what comes out of a debouncer that was
  emptied after a settled batch is put back.
* **`Countdown.run_redelivers`**: the main statement.
-/

namespace CodeGraph

namespace Debouncer

variable {quiet now : Nat} {batch : List Change} (hne : batch ≠ []) (hfixed : settle batch = batch)
include hne hfixed

theorem flush_requeue : (requeue { quiet } now batch).flush = ({ quiet }, some batch) := by
  have hpending : (requeue { quiet } now batch).pending = .ofList batch :=
    congrArg ChangeSet.ofList (List.append_nil batch)
  have htoList : (ChangeSet.ofList batch).toList = batch := hfixed
  rw [flush_eq (hpending ▸ ChangeSet.indexed_ofList batch), hpending, htoList, if_neg hne]
  rfl

theorem poll_requeue (later : Nat) :
    (requeue { quiet } now batch).poll later =
      if later - now < quiet then (requeue { quiet } now batch, none)
      else ({ quiet }, some batch) := by
  rw [← flush_requeue hne hfixed]
  rfl

end Debouncer

namespace Countdown

/-- **An undelivered batch goes out again unchanged.** Settling is done after one time. So if a
batch that came out, whatever had happened before, is put back before anything else is recorded,
the same batch comes out at once or after the quiet period, and the debouncer is again as it was.
Applying a batch of changes that are as seen from the root handles just its changes, in order. -/
theorem run_redelivers (quiet : Nat) (events : List Event) :
    (∀ changes, settle (settle changes) = settle changes) ∧
    let c := run quiet events
    ∀ r ∈ [c.debouncer.poll c.clock, c.debouncer.flush], ∀ batch, r.2 = some batch →
      (∀ now, (r.1.requeue now batch).flush = (r.1, some batch) ∧
        ∀ later, (r.1.requeue now batch).poll later =
          if later - now < r.1.quiet then (r.1.requeue now batch, none) else (r.1, some batch)) ∧
      ∀ (p : Project) cascade, (∀ change ∈ batch, Project.normalizeChange p.root change = change) →
        (p.begin batch cascade).2.queue = batch.map fun change => (change, false) := by
  refine ⟨settle_settle, fun r hr batch hbatch => ?_⟩
  have hsettled := settled_run quiet events
  obtain ⟨hpending, hne, hleft⟩ := Debouncer.given hsettled.indexed hr hbatch
  have hfixed : settle batch = batch := by
    obtain ⟨changes, hchanges⟩ := hsettled
    rw [hpending, hchanges]
    exact settle_settle changes
  refine ⟨fun now => ?_, fun p cascade hnormal => ?_⟩
  · rw [hleft]
    exact ⟨Debouncer.flush_requeue hne hfixed, Debouncer.poll_requeue hne hfixed⟩
  · have hmap : batch.map (Project.normalizeChange p.root) = batch :=
      (List.map_congr_left hnormal).trans (List.map_id batch)
    simp only [Project.begin, hmap, hfixed]

/-- A file moves away and another one takes its place. -/
def movedAway : List Event :=
  [.pushRename ⟨"a.cs"⟩ ⟨"c.cs"⟩ fun _ => true, .push (.created ⟨"a.cs"⟩), .advance 300]

/-- The rename stays in front of the new file at its source. -/
theorem run_redelivers_movedAway :
    let c := run 300 movedAway
    let r := c.debouncer.poll c.clock
    let batch : List Change := [.renamed ⟨"a.cs"⟩ ⟨"c.cs"⟩, .created ⟨"a.cs"⟩]
    r.2 = some batch ∧ (r.1.requeue 350 batch).flush = (r.1, some batch) ∧
      ((r.1.requeue 350 batch).poll 650).2 = some batch := by
  intro c r batch
  have hbatch : r.2 = some batch := by decide +kernel
  have hagain := ((run_redelivers 300 movedAway).2 r List.mem_cons_self batch hbatch).1 350
  have hquiet : r.1.quiet = 300 := by decide +kernel
  refine ⟨hbatch, hagain.1, ?_⟩
  rw [hagain.2, hquiet]
  rfl

end Countdown

end CodeGraph

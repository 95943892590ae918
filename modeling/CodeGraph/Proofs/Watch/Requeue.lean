import CodeGraph.Proofs.SettledOrder
import CodeGraph.Proofs.Update.File
import CodeGraph.Watch.Session

/-!
# What stopping the watch service leaves pending

A service that stops puts the batches that wait in its queue back into the debouncer, one by one and
the oldest first. Each goes in front of what is pending, so of two batches the newer one ends up as
the older one. A single batch stays older than what came after it.

* `putBack`: batches that go back one by one.
* `putBack_of_length_le_one`, `putBack_of_orderly`: one batch, and batches that have nothing to do
  with one another.
* **`Session.pending_after_stop`**: the pending changes once the applying task is over.
-/

namespace CodeGraph

/-- What is pending after batches went back one by one, each in front of what was pending. -/
def putBack (batches : List (List Change)) (pending : List Change) : List Change :=
  batches.foldl (fun pending batch => settle (batch ++ pending)) pending

theorem putBack_of_length_le_one {batches : List (List Change)} {pending : List Change}
    (h : batches.length ≤ 1) (hp : settle pending = pending) :
    putBack batches pending = settle (batches.flatten ++ pending) := by
  match batches with
  | [] => exact hp.symm
  | [batch] => rw [List.flatten_singleton, putBack, List.foldl_cons, List.foldl_nil]
  | _ :: _ :: _ => simp at h

/-- Batches that have nothing to do with one another go back as they are, the newest first. -/
theorem putBack_of_orderly {batches : List (List Change)} {pending : List Change}
    (h : Orderly (batches.reverse.flatten ++ pending)) :
    putBack batches pending = batches.reverse.flatten ++ pending := by
  induction batches generalizing pending with
  | nil => rfl
  | cons batch batches ih =>
    rw [List.reverse_cons, List.flatten_concat, List.append_assoc] at h ⊢
    have hbatch : settle (batch ++ pending) = batch ++ pending :=
      settle_eq_self (List.pairwise_append.1 h).2.1
    change putBack batches (settle (batch ++ pending)) = _
    rw [hbatch, ih h]

namespace Feed

theorem toList_drain (f : Feed) (clock : Nat) :
    (f.drain clock).debouncer.pending.toList =
      putBack f.channel.batches f.debouncer.pending.toList := by
  have hfold : ∀ (batches : List (List Change)) (d : Debouncer),
      (batches.foldl (fun d batch => d.requeue clock batch) d).pending.toList =
        putBack batches d.pending.toList := by
    intro batches
    induction batches with
    | nil => exact fun d => rfl
    | cons batch batches ih => exact fun d => ih (d.requeue clock batch)
  exact hfold _ _

end Feed

/-- The changes that wait for a quiet period. -/
def Service.pending (v : Service) : List Change := v.feeder.feed.debouncer.pending.toList

/-- The batches that wait to be applied, the oldest first. -/
def Service.batches (v : Service) : List (List Change) := v.feeder.feed.channel.batches

namespace Session

theorem service_setFeed (s : Session) (v : Service) (feed : Feed) :
    (s.setFeed v feed).service = some { v with feeder := { v.feeder with feed } } := by
  unfold setFeed
  dsimp only
  split
  · unfold wakeTask
    split
    · unfold wake
      split <;> rfl
    · rfl
  · rfl

/-- **What is pending after a stop.** The applying task puts every batch back, the oldest first and
each in front. A single batch stays older than what was pending; several that have nothing to do
with one another stand in reversed order. -/
theorem pending_after_stop (scene : Scene) (id : TaskId) (fuel : Nat) {s : Session} {v : Service}
    (hs : s.service = some v) (hstop : v.stopping = true)
    (hset : ∃ changes, v.feeder.feed.debouncer.pending = .ofList changes) :
    ∃ s' v', pollWorker scene id (fuel + 1) s .waiting = (s', .finished) ∧ s'.service = some v' ∧
      v'.batches = [] ∧ v'.pending = putBack v.batches v.pending ∧
      (v.batches.length ≤ 1 → v'.pending = settle (v.batches.flatten ++ v.pending)) ∧
      (Orderly (v.batches.reverse.flatten ++ v.pending) →
        v'.pending = v.batches.reverse.flatten ++ v.pending) := by
  have hfixed : settle v.pending = v.pending := by
    obtain ⟨changes, hset⟩ := hset
    rw [Service.pending, hset]
    exact settle_settle changes
  have hdrain : (v.feeder.feed.close.drain v.clock).debouncer.pending.toList =
      putBack v.batches v.pending := Feed.toList_drain _ _
  have hservice := s.service_setFeed v (v.feeder.feed.close.drain v.clock)
  refine ⟨s.setFeed v (v.feeder.feed.close.drain v.clock), _, ?_, hservice, rfl, hdrain,
    fun h => ?_, fun h => ?_⟩
  · rw [pollWorker, hs]
    exact if_pos hstop
  · exact hdrain.trans (putBack_of_length_le_one h hfixed)
  · exact hdrain.trans (putBack_of_orderly h)

/-- An analyzer that finds nothing in a file, at once. -/
def findsNothing : Scene :=
  { world := { analyze := fun _ _ => { outcome := .ok {} }, refusal? := fun _ _ => none }
    delay := fun _ => .none }

/-- A service that is to stop while a deletion of a file and, after it, a creation of the file wait
to be applied. -/
def twoWait : Service :=
  { filter :=
      { root := ⟨⟨"/r"⟩, none⟩, extensions := [], cacheDir := ⟨"c"⟩, ignores := fun _ => false }
    feeder :=
      { feed :=
          { debouncer := { quiet := 300 }
            channel := { capacity := 16, batches := [[.deleted ⟨"a.cs"⟩], [.created ⟨"a.cs"⟩]] } }
        ticker := .ofQuiet 300 }
    manualClock := true
    stopping := true }

/-- A session with that service. -/
def whileTwoWait : Session := { project := Project.unread, service := some twoWait }

/-- The two batches go back, and the deletion is what remains. -/
theorem pending_after_stop_twoWait :
    (twoWait.stopping = true ∧ twoWait.feeder.feed.debouncer.pending = .ofList []) ∧
    ∃ s' v', pollWorker findsNothing 1 1 whileTwoWait .waiting = (s', .finished) ∧
      s'.service = some v' ∧ v'.batches = [] ∧ v'.pending = [.deleted ⟨"a.cs"⟩] := by
  refine ⟨⟨rfl, rfl⟩, ?_⟩
  obtain ⟨s', v', hpoll, hservice, hbatches, hpending, -⟩ :=
    pending_after_stop findsNothing 1 0 (s := whileTwoWait) rfl rfl ⟨[], rfl⟩
  refine ⟨s', v', hpoll, hservice, hbatches, hpending.trans ?_⟩
  decide +kernel

/-- The batches do not go back in their order: the creation, which is newer than the deletion, is
lost. -/
theorem stop_loses_newer_batch :
    ¬ ∀ (scene : Scene) (id : TaskId) (s s' : Session) (v v' : Service),
      s.service = some v → v.stopping = true →
      (∃ changes, v.feeder.feed.debouncer.pending = .ofList changes) →
      pollWorker scene id 1 s .waiting = (s', .finished) → s'.service = some v' →
      v'.pending = settle (v.batches.flatten ++ v.pending) := by
  intro hall
  have hservice := whileTwoWait.service_setFeed twoWait
    (twoWait.feeder.feed.close.drain twoWait.clock)
  have hkept := hall findsNothing 1 whileTwoWait _ twoWait _ rfl rfl ⟨[], rfl⟩ rfl hservice
  revert hkept
  decide +kernel

end Session

end CodeGraph

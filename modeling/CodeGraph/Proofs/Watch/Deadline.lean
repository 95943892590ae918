import CodeGraph.Proofs.SettledOrder
import CodeGraph.Proofs.Watch.Delivery
import Mathlib.Data.List.DropRight

/-!
# When a batch is due

The timer of a debouncer and what is pending are two things: a recorded change starts the timer
anew, a batch that is put back only starts a timer that stands still, and a rename may record no
change at all. Were anything pending while the timer stands still, it would never come out.

* `Countdown`, `Countdown.Event`, `Countdown.run`: a debouncer with its clock and notes of what
  happened to it.
* `Countdown.quietSince?`: when the quiet period began, read off the notes alone.
* `Countdown.Settled`: what is pending is what some changes come to; `settled_run`.
* `Countdown.Timed`: the timer runs exactly while something is pending, from the time that the
  notes give; `Timed.step`, `timed_run`.
* **`Countdown.run_keeps_deadline`**: the main statement.
-/

namespace CodeGraph

namespace Debouncer

variable {d : Debouncer} (h : d.pending.Indexed)
include h

theorem flush_eq :
    d.flush = if d.pending.toList = [] then ({ d with lastChange := none }, none)
      else ({ quiet := d.quiet }, some d.pending.toList) := by
  simp only [flush, ChangeSet.isEmpty_iff h]

theorem given {clock : Nat} {r : Debouncer × Option (List Change)}
    (hr : r ∈ [d.poll clock, d.flush]) {batch : List Change} (hbatch : r.2 = some batch) :
    batch = d.pending.toList ∧ batch ≠ [] ∧ r.1 = { quiet := d.quiet } := by
  have hcases : r = (d, none) ∨ r = d.flush := by
    rcases List.mem_pair.1 hr with rfl | rfl
    · exact d.poll_eq clock
    · exact .inr rfl
  rcases hcases with rfl | rfl
  · cases hbatch
  · rw [flush_eq h] at hbatch ⊢
    split at hbatch
    · cases hbatch
    · rename_i hpending
      cases hbatch
      rw [if_neg hpending]
      exact ⟨rfl, hpending, rfl⟩

end Debouncer

/-! ## A debouncer and what happened to it -/

/-- What went into a debouncer or came out of it. -/
inductive Countdown.Note where
  /-- A change was recorded. -/
  | recorded (time : Nat)
  /-- A batch was put back. -/
  | returned (time : Nat)
  /-- A batch was given out. -/
  | emitted
  deriving DecidableEq, Repr

/-- A debouncer with its clock, and notes of what happened to it, the oldest first. -/
structure Countdown where
  debouncer : Debouncer
  clock : Nat := 0
  log : List Countdown.Note := []

namespace Countdown

/-- The time of a change that was recorded. -/
def Note.recordedAt? : Note → Option Nat
  | recorded time => some time
  | _ => none

/-- The time at which a batch was put back. -/
def Note.returnedAt? : Note → Option Nat
  | returned time => some time
  | _ => none

/-- What happened since the last batch was given out. -/
def sinceEmitted (log : List Note) : List Note := log.rtakeWhile (· != .emitted)

/-- When the quiet period began: with the last change that was recorded since the last batch was
given out or, if there is none, with the first batch that was put back since then. -/
def quietSince? (log : List Note) : Option Nat :=
  ((sinceEmitted log).filterMap Note.recordedAt?).getLast?.or
    ((sinceEmitted log).filterMap Note.returnedAt?).head?

/-- What can be done to a debouncer. -/
inductive Event where
  | push (c : Change)
  | pushRename (source target : Path) (isRelevant : Path → Bool)
  | requeue (batch : List Change)
  | advance (duration : Nat)
  | poll
  | flush

/-- The debouncer was asked for a batch. -/
def ask (c : Countdown) (r : Debouncer × Option (List Change)) : Countdown :=
  { c with debouncer := r.1, log := c.log ++ r.2.toList.map fun _ => .emitted }

def step (c : Countdown) : Event → Countdown
  | .push change =>
    { c with debouncer := c.debouncer.push c.clock change, log := c.log ++ [.recorded c.clock] }
  | .pushRename source target isRelevant =>
    { c with
      debouncer := c.debouncer.pushRename c.clock source target isRelevant
      log := c.log ++
        (Debouncer.renameChanges source target isRelevant).map fun _ => .recorded c.clock }
  | .requeue batch =>
    { c with
      debouncer := c.debouncer.requeue c.clock batch, log := c.log ++ [.returned c.clock] }
  | .advance duration => { c with clock := c.clock + duration }
  | .poll => c.ask (c.debouncer.poll c.clock)
  | .flush => c.ask c.debouncer.flush

/-- What comes of events in order, over a debouncer that was empty. -/
def run (quiet : Nat) (events : List Event) : Countdown :=
  events.foldl step { debouncer := { quiet } }

/-! ## The log -/

theorem quietSince?_recorded (log : List Note) (time : Nat) :
    quietSince? (log ++ [.recorded time]) = some time := by
  have hsince : sinceEmitted (log ++ [.recorded time]) = sinceEmitted log ++ [.recorded time] :=
    List.rtakeWhile_concat_pos _ _ _ (by simp)
  rw [quietSince?, hsince]
  simp [Note.recordedAt?, List.filterMap_append]

theorem quietSince?_returned (log : List Note) (time : Nat) :
    quietSince? (log ++ [.returned time]) = (quietSince? log).or (some time) := by
  have hsince : sinceEmitted (log ++ [.returned time]) = sinceEmitted log ++ [.returned time] :=
    List.rtakeWhile_concat_pos _ _ _ (by simp)
  rw [quietSince?, hsince, quietSince?, Option.or_assoc]
  simp [Note.recordedAt?, Note.returnedAt?, List.filterMap_append, List.head?_append]

theorem quietSince?_emitted (log : List Note) : quietSince? (log ++ [.emitted]) = none := by
  have hsince : sinceEmitted (log ++ [.emitted]) = [] :=
    List.rtakeWhile_concat_neg _ _ _ (by decide)
  rw [quietSince?, hsince]
  rfl

/-! ## Settled changes are pending -/

/-- What is pending is what some changes come to. -/
def Settled (c : Countdown) : Prop := ∃ changes, c.debouncer.pending = .ofList changes

theorem Settled.indexed {c : Countdown} (h : c.Settled) : c.debouncer.pending.Indexed := by
  obtain ⟨changes, hchanges⟩ := h
  rw [hchanges]
  exact ChangeSet.indexed_ofList changes

theorem Settled.isAccumulating_iff {c : Countdown} (h : c.Settled) :
    c.debouncer.isAccumulating = true ↔ c.debouncer.pending.toList ≠ [] := by
  rw [Debouncer.isAccumulating, Bool.not_eq_true', ← Bool.not_eq_true,
    ChangeSet.isEmpty_iff h.indexed]

theorem Settled.nodup_pending {c : Countdown} (h : c.Settled) :
    (c.debouncer.pending.toList.map (·.path.parts)).Nodup := by
  obtain ⟨changes, hchanges⟩ := h
  rw [hchanges]
  exact (orderly_settle changes).nodup_paths

theorem Settled.step {c : Countdown} (h : c.Settled) (event : Event) : (c.step event).Settled := by
  obtain ⟨changes, hchanges⟩ := h
  have hadd : ∀ more : List Change, more.foldl ChangeSet.push c.debouncer.pending =
      .ofList (changes ++ more) := by
    intro more
    rw [hchanges, ChangeSet.ofList, ChangeSet.ofList, List.foldl_append]
  cases event with
  | push change => exact ⟨_, hadd [change]⟩
  | pushRename source target isRelevant =>
    exact ⟨_, (Debouncer.pending_foldl_push _ _ _).trans (hadd _)⟩
  | requeue batch => exact ⟨_, rfl⟩
  | advance duration => exact ⟨changes, hchanges⟩
  | poll =>
    rcases c.debouncer.poll_cases c.clock with ⟨-, hpending⟩ | ⟨-, hpending, -⟩
    · exact ⟨changes, hpending.trans hchanges⟩
    · exact ⟨[], hpending⟩
  | flush =>
    rcases c.debouncer.flush_cases with ⟨-, hpending⟩ | ⟨-, hpending, -⟩
    · exact ⟨changes, hpending.trans hchanges⟩
    · exact ⟨[], hpending⟩

theorem settled_run (quiet : Nat) (events : List Event) : (run quiet events).Settled := by
  have hfold : ∀ c : Countdown, c.Settled → (events.foldl Countdown.step c).Settled := by
    induction events with
    | nil => exact fun c hc => hc
    | cons event events ih => exact fun c hc => ih _ (hc.step event)
  exact hfold _ ⟨[], rfl⟩

/-! ## The timer -/

/-- The timer runs exactly while something is pending, from the time that the notes give. -/
structure Timed (quiet : Nat) (c : Countdown) : Prop where
  quiet_eq : c.debouncer.quiet = quiet
  lastChange_eq : c.debouncer.lastChange = quietSince? c.log
  le_clock : ∀ time, c.debouncer.lastChange = some time → time ≤ c.clock
  running_iff : c.debouncer.lastChange.isSome = true ↔ c.debouncer.pending.toList ≠ []

theorem Timed.lastChange_eq_none_iff {quiet : Nat} {c : Countdown} (h : Timed quiet c) :
    c.debouncer.lastChange = none ↔ c.debouncer.pending.toList = [] := by
  rw [← Option.not_isSome_iff_eq_none, h.running_iff, not_not]

section Step

variable {quiet : Nat} {c : Countdown} (h : Timed quiet c) (hc : c.Settled)
include h hc

theorem Timed.push (change : Change) : Timed quiet (c.step (.push change)) := by
  refine ⟨h.quiet_eq, (quietSince?_recorded _ _).symm, fun time htime => ?_, ?_⟩
  · exact (Option.some.inj htime).ge
  · exact iff_of_true rfl (ChangeSet.toList_push_ne_nil hc.indexed change)

theorem Timed.foldl_push (changes : List Change) :
    Timed quiet { c with
      debouncer := changes.foldl (fun d change => d.push c.clock change) c.debouncer
      log := c.log ++ changes.map fun _ => .recorded c.clock } := by
  induction changes generalizing c with
  | nil => simpa using h
  | cons change changes ih =>
    have hnext := ih (h.push hc change) (hc.step (.push change))
    simpa [Countdown.step, List.append_assoc] using hnext

omit hc in
theorem Timed.requeue {batch : List Change} (hbatch : batch ≠ []) :
    Timed quiet (c.step (.requeue batch)) := by
  have hlast : (c.step (.requeue batch)).debouncer.lastChange =
      c.debouncer.lastChange.or (some c.clock) := Option.orElse_eq_or
  refine ⟨h.quiet_eq, ?_, fun time htime => ?_, ?_⟩
  · rw [hlast, h.lastChange_eq]
    exact (quietSince?_returned _ _).symm
  · rw [hlast, Option.or_eq_some_iff] at htime
    rcases htime with htime | ⟨-, htime⟩
    · exact h.le_clock time htime
    · exact (Option.some.inj htime).ge
  · rw [hlast]
    refine iff_of_true (by simp) (settle_ne_nil ?_)
    simp [hbatch]

theorem Timed.flush_eq :
    c.debouncer.flush = if c.debouncer.pending.toList = [] then (c.debouncer, none)
      else ({ quiet }, some c.debouncer.pending.toList) := by
  rw [Debouncer.flush_eq hc.indexed]
  split
  · rename_i hempty
    rw [← h.lastChange_eq_none_iff.2 hempty]
  · rw [h.quiet_eq]

theorem Timed.flush : Timed quiet (c.step .flush) := by
  rw [Countdown.step, h.flush_eq hc]
  split
  · simpa [ask] using h
  · exact ⟨rfl, (quietSince?_emitted c.log).symm, nofun, iff_of_false nofun fun hne => hne rfl⟩

theorem Timed.poll : Timed quiet (c.step .poll) := by
  rcases c.debouncer.poll_eq c.clock with hpoll | hpoll
  · rw [Countdown.step, hpoll]
    simpa [ask] using h
  · rw [Countdown.step, hpoll]
    exact h.flush hc

theorem Timed.step {event : Event} (hfilled : ∀ batch, event = .requeue batch → batch ≠ []) :
    Timed quiet (c.step event) := by
  cases event with
  | push change => exact h.push hc change
  | pushRename source target isRelevant => exact h.foldl_push hc _
  | requeue batch => exact h.requeue (hfilled batch rfl)
  | advance duration =>
    exact ⟨h.quiet_eq, h.lastChange_eq,
      fun time htime => (h.le_clock time htime).trans (Nat.le_add_right _ _), h.running_iff⟩
  | poll => exact h.poll hc
  | flush => exact h.flush hc

end Step

theorem timed_run (quiet : Nat) {events : List Event}
    (hfilled : ∀ batch, .requeue batch ∈ events → batch ≠ []) : Timed quiet (run quiet events) := by
  -- A push only lets something be pending if the pending changes are settled.
  have hfold : ∀ c : Countdown, c.Settled → Timed quiet c →
      Timed quiet (events.foldl Countdown.step c) := by
    induction events with
    | nil => exact fun c _ hc => hc
    | cons event events ih =>
      intro c hsettled hc
      refine ih (fun batch hm => hfilled batch (List.mem_cons_of_mem _ hm)) _
        (hsettled.step event) (hc.step hsettled fun batch he => hfilled batch ?_)
      exact he ▸ List.mem_cons_self
  exact hfold _ ⟨[], rfl⟩ ⟨rfl, rfl, nofun, iff_of_false nofun fun hne => hne rfl⟩

/-! ## What a debouncer says of itself -/

section Timed

variable {quiet : Nat} {c : Countdown} (h : Timed quiet c) (hc : c.Settled)
include h hc

theorem Timed.deadline?_eq :
    c.debouncer.deadline? = (quietSince? c.log).map (· + quiet) := by
  rw [← h.lastChange_eq, Debouncer.deadline?, h.quiet_eq]
  split
  · rename_i hempty
    rw [h.lastChange_eq_none_iff.2 ((ChangeSet.isEmpty_iff hc.indexed).1 hempty)]
    rfl
  · rfl

theorem Timed.isSome_deadline?_iff :
    c.debouncer.deadline?.isSome = true ↔ c.debouncer.pending.toList ≠ [] := by
  rw [h.deadline?_eq hc, Option.isSome_map, ← h.lastChange_eq, h.running_iff]

theorem Timed.isSome_flush_iff :
    c.debouncer.flush.2.isSome = true ↔ c.debouncer.pending.toList ≠ [] := by
  rw [h.flush_eq hc]
  split <;> simp_all

/-- The timer that `poll` reads has run for the quiet period exactly if the deadline has come. -/
theorem Timed.isSome_poll_iff :
    (c.debouncer.poll c.clock).2.isSome = true ↔
      c.debouncer.pending.toList ≠ [] ∧
        ∃ due, c.debouncer.deadline? = some due ∧ due ≤ c.clock := by
  rw [h.deadline?_eq hc, ← h.lastChange_eq, ← h.running_iff, Debouncer.poll]
  cases hlast : c.debouncer.lastChange with
  | none => simp
  | some last =>
    have hle : last ≤ c.clock := h.le_clock last hlast
    have hpending : c.debouncer.pending.toList ≠ [] := h.running_iff.1 (hlast ▸ rfl)
    have hdue : c.clock - last < c.debouncer.quiet ↔ ¬ last + quiet ≤ c.clock := by
      rw [h.quiet_eq]
      omega
    dsimp only
    split
    · rename_i hearly
      simpa using hdue.1 hearly
    · rename_i hlate
      simpa [(h.isSome_flush_iff hc).2 hpending] using not_not.1 (mt hdue.2 hlate)

theorem Timed.eq_of_none {r : Debouncer × Option (List Change)}
    (hr : r ∈ [c.debouncer.poll c.clock, c.debouncer.flush]) (hnone : r.2 = none) :
    r.1 = c.debouncer := by
  have hflush : c.debouncer.flush.2 = none → c.debouncer.flush.1 = c.debouncer := by
    rw [h.flush_eq hc]
    split
    · exact fun _ => rfl
    · nofun
  rcases List.mem_pair.1 hr with rfl | rfl
  · rcases c.debouncer.poll_eq c.clock with hpoll | hpoll
    · rw [hpoll]
    · rw [hpoll] at hnone ⊢
      exact hflush hnone
  · exact hflush hnone

end Timed

/-- **When a batch comes out.** Over any run in which only batches with changes are put back, the
debouncer knows a deadline exactly while it accumulates, that is while changes are pending. The
deadline is the quiet period after the last change that was recorded since a batch was given out
or, if there is none, after the first batch that was put back since then. Polling gives a batch
exactly if changes are pending and the deadline has come, flushing if changes are pending. A batch
is all that was pending, is not empty and has each path once; the debouncer is then as it was at
first, and it stays as it is if there is no batch. -/
theorem run_keeps_deadline (quiet : Nat) (events : List Event)
    (hfilled : ∀ batch, .requeue batch ∈ events → batch ≠ []) :
    let c := run quiet events
    let d := c.debouncer
    (d.deadline?.isSome = true ↔ d.isAccumulating = true) ∧
    (d.isAccumulating = true ↔ d.pending.toList ≠ []) ∧
    d.deadline? = (quietSince? c.log).map (· + quiet) ∧
    ((d.poll c.clock).2.isSome = true ↔
      d.pending.toList ≠ [] ∧ ∃ due, d.deadline? = some due ∧ due ≤ c.clock) ∧
    (d.flush.2.isSome = true ↔ d.pending.toList ≠ []) ∧
    ∀ r ∈ [d.poll c.clock, d.flush],
      (∀ batch, r.2 = some batch →
        batch = d.pending.toList ∧ batch ≠ [] ∧ (batch.map (·.path.parts)).Nodup ∧
        r.1 = { quiet }) ∧
      (r.2 = none → r.1 = d) := by
  have h := timed_run quiet hfilled
  have hc := settled_run quiet events
  refine ⟨(h.isSome_deadline?_iff hc).trans hc.isAccumulating_iff.symm,
    hc.isAccumulating_iff, h.deadline?_eq hc, h.isSome_poll_iff hc, h.isSome_flush_iff hc,
    fun r hr => ⟨fun batch hbatch => ?_, h.eq_of_none hc hr⟩⟩
  obtain ⟨rfl, hne, hr⟩ := Debouncer.given hc.indexed hr hbatch
  exact ⟨rfl, hne, hc.nodup_pending, h.quiet_eq ▸ hr⟩

/-- A batch is put back after it came out, and a rename far from the project records nothing. -/
def putBackOnce : List Event :=
  [.push (.created ⟨"a.cs"⟩), .advance 300, .poll, .requeue [.created ⟨"a.cs"⟩], .advance 200,
   .pushRename ⟨"a.txt"⟩ ⟨"b.txt"⟩ fun _ => false, .advance 100]

/-- The timer runs from the time at which the batch was put back. -/
theorem run_keeps_deadline_putBackOnce :
    (∀ batch, .requeue batch ∈ putBackOnce → batch ≠ []) ∧
    quietSince? (run 300 putBackOnce).log = some 300 ∧
    (run 300 putBackOnce).debouncer.deadline? = some 600 ∧ (run 300 putBackOnce).clock = 600 ∧
    ((run 300 putBackOnce).debouncer.poll 600).2.isSome = true := by
  have hfilled : ∀ batch, .requeue batch ∈ putBackOnce → batch ≠ [] := by simp [putBackOnce]
  have hsince : quietSince? (run 300 putBackOnce).log = some 300 := by decide +kernel
  obtain ⟨hsome, hpending, hdeadline, hpoll, -⟩ := run_keeps_deadline 300 putBackOnce hfilled
  rw [hsince] at hdeadline
  exact ⟨hfilled, hsince, hdeadline, rfl,
    hpoll.2 ⟨hpending.1 (hsome.1 (hdeadline ▸ rfl)), 600, hdeadline, le_rfl⟩⟩

end Countdown

end CodeGraph

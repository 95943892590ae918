import CodeGraph.Watch.Feed

/-!
# What the feeding task delivers

The task takes a batch out of the debouncer before it knows that the queue has room for it, and the
queue may close in between. Whatever happens in whatever order, each batch that was taken is at one
place: with the receiver, in the queue, held by the task, or back in the debouncer.

* `Feeder.isDue`, `Feed.taken?`: when the task ticks, and the batch that it takes then.
* `Delivery`, `Delivery.Event`, `Delivery.step`, `Delivery.run`: a feeding task with a record of its
  batches, and what happens to it.
* `Delivery.Accounted`: where the batches are; `Accounted.release`, `Accounted.tick` and
  `Accounted.step` say that it is kept.
* **`Delivery.run_delivers`**: the main statement; `Delivery.held_beside_room`: a batch is held for
  a moment beside the room for it.
-/

namespace CodeGraph

theorem Debouncer.flush_cases (d : Debouncer) :
    (d.flush.2 = none ∧ d.flush.1.pending = d.pending) ∨
      (d.flush.2 = some d.pending.toList ∧ d.flush.1.pending = {} ∧
        d.pending.isEmpty = false) := by
  unfold flush
  split
  · exact .inl ⟨rfl, rfl⟩
  · rename_i hpending
    exact .inr ⟨rfl, rfl, Bool.eq_false_iff.2 hpending⟩

theorem Debouncer.poll_eq (d : Debouncer) (clock : Nat) :
    d.poll clock = (d, none) ∨ d.poll clock = d.flush := by
  unfold poll
  split
  · exact .inl rfl
  · split
    · exact .inl rfl
    · exact .inr rfl

theorem Debouncer.poll_cases (d : Debouncer) (clock : Nat) :
    ((d.poll clock).2 = none ∧ (d.poll clock).1.pending = d.pending) ∨
      ((d.poll clock).2 = some d.pending.toList ∧ (d.poll clock).1.pending = {} ∧
        d.pending.isEmpty = false) := by
  rcases d.poll_eq clock with hpoll | hpoll
  · rw [hpoll]
    exact .inl ⟨rfl, rfl⟩
  · rw [hpoll]
    exact d.flush_cases

theorem Debouncer.pending_foldl_push (d : Debouncer) (now : Nat) (changes : List Change) :
    (changes.foldl (fun d c => d.push now c) d).pending =
      changes.foldl ChangeSet.push d.pending := by
  induction changes generalizing d with
  | nil => rfl
  | cons c changes ih => exact ih (d.push now c)

namespace Feed

/-- The batch that the task takes out of the debouncer at a tick. -/
def taken? (f : Feed) (clock : Nat) : Option (List Change) :=
  if f.ended || f.held.isSome || f.channel.closed then none else (f.debouncer.poll clock).2

theorem release_cases (f : Feed) (clock : Nat) :
    (f.held = none ∧ f.release clock = f) ∨
      ∃ batch, f.held = some batch ∧
        ((f.channel.closed = true ∧
            f.release clock =
              { f with
                debouncer := f.debouncer.requeue clock batch, held := none, ended := true }) ∨
          (f.channel.closed = false ∧ f.channel.batches.length < f.channel.capacity ∧
            f.release clock = { f with channel := f.channel.push batch, held := none }) ∨
          (f.channel.closed = false ∧ f.channel.capacity ≤ f.channel.batches.length ∧
            f.release clock = f)) := by
  unfold release
  cases hheld : f.held with
  | none => exact .inl ⟨rfl, rfl⟩
  | some batch =>
    refine .inr ⟨batch, rfl, ?_⟩
    dsimp only
    split
    · exact .inl ⟨‹_›, rfl⟩
    · rename_i hopen
      have hclosed : f.channel.closed = false := Bool.eq_false_iff.2 hopen
      split
      · rename_i hroom
        exact .inr (.inl ⟨hclosed, of_decide_eq_true hroom, rfl⟩)
      · rename_i hroom
        exact .inr (.inr ⟨hclosed, Nat.le_of_not_lt fun h => hroom (decide_eq_true h), rfl⟩)

theorem tick_cases (f : Feed) (clock : Nat) :
    ((f.held.isSome ∨ f.ended) ∧ f.taken? clock = none ∧ f.tick clock = f) ∨
      (f.held = none ∧ f.channel.closed = true ∧ f.taken? clock = none ∧
        f.tick clock = { f with ended := true }) ∨
      (f.held = none ∧ f.channel.closed = false ∧ f.taken? clock = none ∧
        ∃ d : Debouncer, d.pending = f.debouncer.pending ∧
          f.tick clock = { f with debouncer := d }) ∨
      (f.held = none ∧ f.channel.closed = false ∧ f.debouncer.pending.isEmpty = false ∧
        f.taken? clock = some f.debouncer.pending.toList ∧
        ∃ d : Debouncer, d.pending = {} ∧
          f.tick clock = { f with debouncer := d }.offer f.debouncer.pending.toList) := by
  unfold tick taken?
  by_cases hbusy : (f.ended || f.held.isSome) = true
  · refine .inl ⟨?_, by simp [hbusy], if_pos hbusy⟩
    rw [Bool.or_eq_true] at hbusy
    exact hbusy.symm
  · have hfree : (f.ended || f.held.isSome) = false := Bool.eq_false_iff.2 hbusy
    have hheld : f.held = none := by simpa using (Bool.or_eq_false_iff.1 hfree).2
    rw [if_neg hbusy, hfree, Bool.false_or]
    refine .inr ?_
    cases hclosed : f.channel.closed with
    | true => exact .inl ⟨hheld, rfl, rfl, rfl⟩
    | false =>
      rw [if_neg Bool.false_ne_true, if_neg Bool.false_ne_true]
      refine .inr ?_
      rcases f.debouncer.poll_cases clock with ⟨hnone, hpending⟩ | ⟨hsome, hpending, hfilled⟩
      all_goals rcases hpoll : f.debouncer.poll clock with ⟨d, batch⟩
      all_goals simp only [hpoll] at *
      · subst hnone
        exact .inl ⟨hheld, trivial, rfl, d, hpending, rfl⟩
      · subst hsome
        exact .inr ⟨hheld, trivial, hfilled, rfl, d, hpending, rfl⟩

end Feed

/-- Whether the timer of the task has gone off, if the task acts at a time. -/
def Feeder.isDue (f : Feeder) (now : Nat) : Bool :=
  Ticker.wholeMs (f.ticker.due.getD (now * 1000)) ≤ now

/-- The task sees first to the batch that it holds, and then ticks if its timer has gone off. -/
theorem Feeder.feed_poll (f : Feeder) (clock now : Nat) :
    (f.poll clock now).feed =
      if f.isDue now then (f.feed.release clock).tick clock else f.feed.release clock := by
  unfold poll isDue
  dsimp only
  by_cases hbusy : ((f.feed.release clock).held.isSome || (f.feed.release clock).ended) = true
  · have htick : (f.feed.release clock).tick clock = f.feed.release clock := by
      rw [Feed.tick, if_pos (Bool.or_comm _ _ ▸ hbusy)]
    rw [if_pos hbusy, htick, ite_self]
  · rw [if_neg hbusy]
    split
    · rename_i hdue
      simp [hdue]
    · rename_i hdue
      simp [hdue]

/-! ## The record of a task -/

/-- A feeding task with its timer, the clock of its debouncer, and what became of its batches. -/
structure Delivery where
  feed : Feed
  ticker : Ticker
  clock : Nat := 0
  /-- The batches that the task took out of the debouncer, the oldest first. -/
  polled : List (List Change) := []
  /-- The batches that were taken out of the queue, the oldest first. -/
  received : List (List Change) := []
  /-- The batch that went back to the debouncer because the queue was closed. -/
  returned : Option (List Change) := none
  /-- How many batches were taken out of the queue since the task last acted. A batch that is held
  takes the first place that they left when the task acts again. -/
  vacated : Nat := 0

namespace Delivery

/-- The task alone. -/
def feeder (d : Delivery) : Feeder := ⟨d.feed, d.ticker⟩

/-- The changes that wait for a quiet period. -/
def pending (d : Delivery) : ChangeSet := d.feed.debouncer.pending

/-- Something goes into the debouncer. -/
def fill (d : Delivery) (f : Debouncer → Debouncer) : Delivery :=
  { d with feed := { d.feed with debouncer := f d.feed.debouncer } }

/-- The task sees to the batch that it holds. -/
def release (d : Delivery) : Delivery :=
  { d with
    feed := d.feed.release d.clock
    returned := if d.feed.channel.closed then d.feed.held <|> d.returned else d.returned
    vacated := 0 }

def tick (d : Delivery) : Delivery :=
  { d with feed := d.feed.tick d.clock, polled := d.polled ++ (d.feed.taken? d.clock).toList }

/-- The task acts at a time. -/
def act (d : Delivery) (now : Nat) : Delivery :=
  { (if d.feeder.isDue now then d.release.tick else d.release) with
    ticker := (d.feeder.poll d.clock now).ticker }

/-- A batch is taken out of the queue, if there is one. -/
def receive (d : Delivery) : Delivery :=
  { d with
    feed := d.feed.receive.1
    received := d.received ++ d.feed.receive.2.toList
    vacated := d.vacated + d.feed.receive.2.toList.length }

/-- What can happen to a task. -/
inductive Event where
  | act (now : Nat)
  | push (c : Change)
  | rename (source target : Path) (isRelevant : Path → Bool)
  | requeue (batch : List Change)
  /-- The clock of the debouncer goes on. -/
  | advance (duration : Nat)
  | receive
  | close

def step (d : Delivery) : Event → Delivery
  | .act now => d.act now
  | .push c => d.fill (·.push d.clock c)
  | .rename source target isRelevant => d.fill (·.pushRename d.clock source target isRelevant)
  | .requeue batch => d.fill (·.requeue d.clock batch)
  | .advance duration => { d with clock := d.clock + duration }
  | .receive => d.receive
  | .close => { d with feed := d.feed.close }

/-- A task after events in order, over a debouncer and a queue that were empty. -/
def run (quiet capacity : Nat) (events : List Event) : Delivery :=
  let start := Feeder.ofDebouncer { quiet } capacity
  events.foldl step { feed := start.feed, ticker := start.ticker }

theorem feeder_act (d : Delivery) (now : Nat) :
    (d.act now).feeder = d.feeder.poll d.clock now := by
  have hfeed : (d.act now).feed = (d.feeder.poll d.clock now).feed := by
    rw [Feeder.feed_poll]
    unfold act
    split <;> rfl
  change Feeder.mk (d.act now).feed (d.feeder.poll d.clock now).ticker = _
  rw [hfeed]

theorem vacated_act (d : Delivery) (now : Nat) : (d.act now).vacated = 0 := by
  unfold act
  split <;> rfl

/-! ## Where the batches are -/

/-- Each batch that was taken is with the receiver, in the queue, held, or back in the debouncer, in
this order. The queue holds no more than it may, and did not have room for a batch that is held when
the task last acted. -/
structure Accounted (capacity : Nat) (d : Delivery) : Prop where
  capacity_eq : d.feed.channel.capacity = capacity
  delivered :
    d.polled = d.received ++ d.feed.channel.batches ++ d.feed.held.toList ++ d.returned.toList
  bounded : d.feed.channel.batches.length ≤ capacity
  full : d.feed.held.isSome → d.feed.channel.batches.length + d.vacated = capacity
  returned : d.returned.isSome → d.feed.channel.closed = true ∧ d.feed.held = none
  ended : d.feed.ended = true → d.feed.channel.closed = true

namespace Accounted

variable {capacity : Nat} {d : Delivery} (h : Accounted capacity d)
include h

/-- The pending changes, the clock and the timer have no part in it. -/
theorem congr {d' : Delivery} (hchannel : d'.feed.channel = d.feed.channel)
    (hheld : d'.feed.held = d.feed.held) (hended : d'.feed.ended = d.feed.ended)
    (hpolled : d'.polled = d.polled) (hreceived : d'.received = d.received)
    (hreturned : d'.returned = d.returned) (hvacated : d'.vacated = d.vacated) :
    Accounted capacity d' where
  capacity_eq := by rw [hchannel, h.capacity_eq]
  delivered := by rw [hpolled, hreceived, hchannel, hheld, hreturned, h.delivered]
  bounded := by rw [hchannel]; exact h.bounded
  full := by rw [hchannel, hheld, hvacated]; exact h.full
  returned := by rw [hreturned, hchannel, hheld]; exact h.returned
  ended := by rw [hended, hchannel]; exact h.ended

theorem returned_eq_none (hd : d.feed.channel.closed = false ∨ d.feed.held.isSome) :
    d.returned = none := by
  cases hr : d.returned with
  | none => rfl
  | some batch =>
    obtain ⟨hclosed, hheld⟩ := h.returned (by rw [hr, Option.isSome_some])
    simp [hclosed, hheld] at hd

theorem release : Accounted capacity d.release := by
  have hkept := h.returned_eq_none
  obtain ⟨hcapacity, hdelivered, hbounded, hfull, hreturned, hended⟩ := h
  unfold Delivery.release
  rcases d.feed.release_cases d.clock with ⟨hheld, hrelease⟩ | ⟨batch, hheld, hrelease⟩
  · rw [hrelease]
    refine ⟨hcapacity, ?_, hbounded, by simp [hheld], ?_, hended⟩
    · simpa [hheld] using hdelivered
    · simpa [hheld] using hreturned
  · replace hkept : d.returned = none := hkept (.inr (by rw [hheld, Option.isSome_some]))
    rw [hheld, hkept] at hdelivered
    rcases hrelease with ⟨hclosed, hrelease⟩ | ⟨hopen, hroom, hrelease⟩ | ⟨hopen, hroom, hrelease⟩
    all_goals rw [hrelease]
    · refine ⟨hcapacity, ?_, hbounded, by simp, fun _ => ⟨hclosed, rfl⟩, fun _ => hclosed⟩
      simpa [hclosed, hheld] using hdelivered
    · refine ⟨hcapacity, ?_, ?_, by simp, by simp [hopen, hkept], hended⟩
      · simpa [hopen, hkept, Channel.push] using hdelivered
      · simp only [Channel.push, List.length_append, List.length_singleton]
        omega
    · refine ⟨hcapacity, ?_, hbounded, fun _ => ?_, by simp [hopen, hkept], hended⟩
      · simpa [hopen, hheld, hkept] using hdelivered
      · change d.feed.channel.batches.length + 0 = capacity
        omega

theorem tick (hvacated : d.vacated = 0) : Accounted capacity d.tick := by
  have hkept := h.returned_eq_none
  obtain ⟨hcapacity, hdelivered, hbounded, hfull, hreturned, hended⟩ := h
  unfold Delivery.tick
  rcases d.feed.tick_cases d.clock with ⟨-, htaken, htick⟩ | ⟨hheld, hclosed, htaken, htick⟩ |
    ⟨hheld, hopen, htaken, D, -, htick⟩ | ⟨hheld, hopen, -, htaken, D, -, htick⟩
  all_goals rw [htaken, htick]
  · exact ⟨hcapacity, by simpa using hdelivered, hbounded, hfull, hreturned, hended⟩
  · exact ⟨hcapacity, by simpa using hdelivered, hbounded, hfull, hreturned, fun _ => hclosed⟩
  · exact ⟨hcapacity, by simpa using hdelivered, hbounded, hfull, hreturned, hended⟩
  · -- The batch that is taken comes last, in the queue or outside it.
    replace hkept : d.returned = none := hkept (.inl hopen)
    unfold Feed.offer
    split
    · rename_i hroom
      have hlt : d.feed.channel.batches.length < d.feed.channel.capacity := of_decide_eq_true hroom
      refine ⟨hcapacity, ?_, ?_, by simp [hheld], by simp [hkept], hended⟩
      · simp [hdelivered, hheld, hkept, Channel.push]
      · simp only [Channel.push, List.length_append, List.length_singleton]
        omega
    · rename_i hroom
      have hle : d.feed.channel.capacity ≤ d.feed.channel.batches.length :=
        Nat.le_of_not_lt fun hlt => hroom (decide_eq_true hlt)
      refine ⟨hcapacity, ?_, hbounded, fun _ => ?_, by simp [hkept], hended⟩
      · simp [hdelivered, hheld, hkept]
      · change d.feed.channel.batches.length + d.vacated = capacity
        omega

theorem act (now : Nat) : Accounted capacity (d.act now) := by
  have hparts : Accounted capacity (if d.feeder.isDue now then d.release.tick else d.release) := by
    split
    · exact h.release.tick rfl
    · exact h.release
  exact hparts.congr rfl rfl rfl rfl rfl rfl rfl

theorem receive : Accounted capacity d.receive := by
  obtain ⟨hcapacity, hdelivered, hbounded, hfull, hreturned, hended⟩ := h
  unfold Delivery.receive Feed.receive
  split
  · exact ⟨hcapacity, by simpa using hdelivered, hbounded, by simpa using hfull, hreturned, hended⟩
  · rename_i batch rest hbatches
    rw [hbatches] at hdelivered hbounded hfull
    refine ⟨hcapacity, by simpa using hdelivered, ?_, fun hheld => ?_, hreturned, hended⟩
    · exact Nat.le_of_succ_le hbounded
    · have hwas := hfull hheld
      simp only [List.length_cons, Option.toList_some, List.length_nil] at hwas ⊢
      omega

theorem step (event : Event) : Accounted capacity (d.step event) := by
  cases event with
  | act now => exact h.act now
  | receive => exact h.receive
  | push _ | rename _ _ _ | requeue _ | advance _ => exact h.congr rfl rfl rfl rfl rfl rfl rfl
  | close =>
    exact ⟨h.capacity_eq, h.delivered, h.bounded, h.full, fun hr => ⟨rfl, (h.returned hr).2⟩,
      fun _ => rfl⟩

end Accounted

theorem accounted_run (quiet capacity : Nat) (events : List Event) :
    Accounted capacity (run quiet capacity events) := by
  have hfold : ∀ (events : List Event) (d : Delivery), Accounted capacity d →
      Accounted capacity (events.foldl step d) := by
    intro events
    induction events with
    | nil => exact fun d h => h
    | cons event events ih => exact fun d h => ih _ (h.step event)
  refine hfold events _ ⟨rfl, rfl, Nat.zero_le _, fun hheld => ?_, fun hreturned => ?_, ?_⟩
  · simp [Feeder.ofDebouncer] at hheld
  · simp at hreturned
  · simp [Feeder.ofDebouncer]

/-! ## What the task does to the pending changes -/

theorem tick_polls (d : Delivery) :
    (d.tick.polled = d.polled ∧ d.tick.pending = d.pending) ∨
      (d.tick.polled = d.polled ++ [d.pending.toList] ∧ d.tick.pending = {} ∧
        d.pending.isEmpty = false) := by
  unfold tick pending
  rcases d.feed.tick_cases d.clock with ⟨-, htaken, htick⟩ | ⟨-, -, htaken, htick⟩ |
    ⟨-, -, htaken, D, hD, htick⟩ | ⟨-, -, hfilled, htaken, D, hD, htick⟩
  all_goals rw [htaken, htick]
  · exact .inl ⟨List.append_nil _, rfl⟩
  · exact .inl ⟨List.append_nil _, rfl⟩
  · exact .inl ⟨List.append_nil _, hD⟩
  · refine .inr ⟨rfl, ?_, hfilled⟩
    unfold Feed.offer
    split <;> exact hD

theorem act_of_open {d : Delivery} (h : d.feed.channel.closed = false) (now : Nat) :
    ((d.act now).polled = d.polled ∧ (d.act now).pending = d.pending) ∨
      ((d.act now).polled = d.polled ++ [d.pending.toList] ∧ (d.act now).pending = {} ∧
        d.pending.isEmpty = false) := by
  have hrelease : d.release.pending = d.pending := by
    unfold pending release
    rcases d.feed.release_cases d.clock with
      ⟨-, hr⟩ | ⟨batch, -, ⟨hclosed, -⟩ | ⟨-, -, hr⟩ | ⟨-, -, hr⟩⟩
    · rw [hr]
    · exact absurd (h.symm.trans hclosed) Bool.false_ne_true
    · rw [hr]
    · rw [hr]
  unfold act
  split
  · have htick := d.release.tick_polls
    rwa [hrelease] at htick
  · exact .inl ⟨rfl, hrelease⟩

theorem tick_of_closed {d : Delivery} (h : d.feed.channel.closed = true) :
    d.tick = { d with feed := { d.feed with ended := d.feed.ended || d.feed.held.isNone } } := by
  unfold tick
  rcases d.feed.tick_cases d.clock with ⟨hbusy, htaken, htick⟩ | ⟨hheld, -, htaken, htick⟩ |
    ⟨-, hopen, -⟩ | ⟨-, hopen, -⟩
  · have hended : (d.feed.ended || d.feed.held.isNone) = d.feed.ended := by
      rcases hbusy with hheld | hended
      · rw [← Option.not_isSome, hheld, Bool.not_true, Bool.or_false]
      · rw [hended, Bool.true_or]
    rw [htaken, htick, hended, Option.toList_none, List.append_nil]
  · have hended : (d.feed.ended || d.feed.held.isNone) = true := by
      rw [hheld, Option.isNone_none, Bool.or_true]
    rw [htaken, htick, hended, Option.toList_none, List.append_nil]
  · exact absurd (hopen.symm.trans h) Bool.false_ne_true
  · exact absurd (hopen.symm.trans h) Bool.false_ne_true

theorem release_of_closed {d : Delivery} (h : d.feed.channel.closed = true) :
    (d.feed.held = none ∧ d.release.feed = d.feed) ∨
      ∃ batch, d.feed.held = some batch ∧
        d.release.feed =
          { d.feed with
            debouncer := d.feed.debouncer.requeue d.clock batch, held := none, ended := true } := by
  rcases d.feed.release_cases d.clock with
    hfree | ⟨batch, hheld, ⟨-, hrelease⟩ | ⟨hopen, -⟩ | ⟨hopen, -⟩⟩
  · exact .inl hfree
  · exact .inr ⟨batch, hheld, hrelease⟩
  · exact absurd (hopen.symm.trans h) Bool.false_ne_true
  · exact absurd (hopen.symm.trans h) Bool.false_ne_true

/-- Once the queue is closed the task takes nothing any more. The batch that it holds goes in front
of what is pending, and that ends the task; else its next tick does. -/
theorem act_of_closed {d : Delivery} (h : d.feed.channel.closed = true) (now : Nat) :
    (d.act now).feed.channel.closed = true ∧ (d.act now).polled = d.polled ∧
      (∀ batch, d.feed.held = some batch →
        (d.act now).pending = .ofList (batch ++ d.pending.toList)) ∧
      (d.feed.held = none → (d.act now).pending = d.pending) ∧
      (d.act now).feed.held = none ∧
      (d.feed.held.isSome ∨ d.feeder.isDue now → (d.act now).feed.ended = true) := by
  have hclosed : d.release.feed.channel.closed = true := by
    rcases release_of_closed h with ⟨-, hrelease⟩ | ⟨batch, -, hrelease⟩
    · rwa [hrelease]
    · rwa [hrelease]
  unfold act pending
  rw [tick_of_closed hclosed]
  rcases release_of_closed h with ⟨hheld, hrelease⟩ | ⟨batch, hheld, hrelease⟩
  · split <;> simp_all [release]
  · split <;> simp_all [release, Debouncer.requeue]

theorem polled_of_closed (events : List Event) {d : Delivery}
    (h : d.feed.channel.closed = true) : (events.foldl step d).polled = d.polled := by
  have hstep : ∀ (event : Event) (d : Delivery), d.feed.channel.closed = true →
      (d.step event).feed.channel.closed = true ∧ (d.step event).polled = d.polled := by
    intro event d h
    cases event with
    | act now => exact ⟨(act_of_closed h now).1, (act_of_closed h now).2.1⟩
    | push _ | rename _ _ _ | requeue _ | advance _ => exact ⟨h, rfl⟩
    | close => exact ⟨rfl, rfl⟩
    | receive =>
      refine ⟨?_, rfl⟩
      change d.feed.receive.1.channel.closed = true
      unfold Feed.receive
      split <;> exact h
  induction events generalizing d with
  | nil => rfl
  | cons event events ih =>
    exact (ih (hstep event d h).1).trans (hstep event d h).2

/-- **Nothing is lost, and nothing is delivered twice**, whatever happens in whatever order.

The queue never holds more than it may. After the task acted, a batch is held only while the queue
is full; the places that are vacated from then on stay free until the task acts again. As long as
the queue is open the task is not over, the batches that it took are those that were received, those
in the queue and the one that is held, in this order, and it takes all that is pending or leaves it
alone. Once the queue is closed the task takes nothing. When it acts, a batch that is held goes in
front of what is pending and the task is over. -/
theorem run_delivers (quiet capacity : Nat) (events : List Event) :
    let d := run quiet capacity events
    d.feed.channel.batches.length ≤ capacity ∧
    (d.feed.held.isSome → d.feed.channel.batches.length + d.vacated = capacity) ∧
    (∀ now, (d.act now).feeder = d.feeder.poll d.clock now ∧ (d.act now).vacated = 0 ∧
      ((d.act now).feed.held.isSome → (d.act now).feed.channel.batches.length = capacity)) ∧
    (d.feed.channel.closed = false →
      d.polled = d.received ++ d.feed.channel.batches ++ d.feed.held.toList ∧
      d.feed.ended = false ∧
      ∀ now,
        ((d.act now).polled = d.polled ∧ (d.act now).pending = d.pending) ∨
        ((d.act now).polled = d.polled ++ [d.pending.toList] ∧ (d.act now).pending = {} ∧
          d.pending.isEmpty = false)) ∧
    (d.feed.channel.closed = true →
      d.polled = d.received ++ d.feed.channel.batches ++ d.feed.held.toList ++ d.returned.toList ∧
      (∀ later : List Event, (later.foldl step d).polled = d.polled) ∧
      ∀ now,
        (∀ batch, d.feed.held = some batch →
          (d.act now).pending = .ofList (batch ++ d.pending.toList)) ∧
        (d.feed.held = none → (d.act now).pending = d.pending) ∧
        (d.act now).feed.held = none ∧
        (d.feed.held.isSome ∨ d.feeder.isDue now → (d.act now).feed.ended = true)) := by
  intro d
  have h : Accounted capacity d := accounted_run quiet capacity events
  refine ⟨h.bounded, h.full, fun now => ⟨feeder_act d now, vacated_act d now, fun hheld => ?_⟩,
    fun hopen => ⟨?_, ?_, ?_⟩,
    fun hclosed => ⟨h.delivered, fun later => polled_of_closed later hclosed, fun now => ?_⟩⟩
  · have hfull := (h.act now).full hheld
    rwa [vacated_act, Nat.add_zero] at hfull
  · simpa [h.returned_eq_none (.inl hopen)] using h.delivered
  · exact Bool.eq_false_iff.2 fun hended => Bool.false_ne_true (hopen.symm.trans (h.ended hended))
  · exact act_of_open hopen
  · exact (act_of_closed hclosed now).2.2

/-- With room for one batch, the second is still held after the first was received: it goes on when
the task acts again. -/
theorem held_beside_room :
    let d := run 300 1
      [.push (.created ⟨"a.cs"⟩), .advance 300, .act 0, .push (.created ⟨"b.cs"⟩), .advance 300,
        .act 75, .receive]
    d.feed.channel.closed = false ∧ d.received = [[.created ⟨"a.cs"⟩]] ∧
      d.feed.held = some [.created ⟨"b.cs"⟩] ∧ d.feed.channel.batches.length < 1 ∧
      (d.act 76).feed.held = none ∧ (d.act 76).feed.channel.batches = [[.created ⟨"b.cs"⟩]] := by
  decide

/-- A batch that is held when the queue closes goes back in front of the change that came last. -/
example :
    let d := run 300 1
      [.push (.created ⟨"a.cs"⟩), .advance 300, .act 0, .push (.created ⟨"b.cs"⟩), .advance 300,
        .act 75, .push (.deleted ⟨"c.cs"⟩), .close, .act 150]
    d.polled = [[.created ⟨"a.cs"⟩], [.created ⟨"b.cs"⟩]] ∧
      d.feed.channel.batches = [[.created ⟨"a.cs"⟩]] ∧ d.returned = some [.created ⟨"b.cs"⟩] ∧
      d.pending.toList = [.created ⟨"b.cs"⟩, .deleted ⟨"c.cs"⟩] := by
  decide

end Delivery

end CodeGraph

import CodeGraph.Watch.Debouncer

/-!
# Feeding batches

Settled batches go from the debouncer through a bounded queue to whoever applies them. A task asks
the debouncer at every tick of a timer; while the queue is full it holds one batch and asks no
further. When the queue is closed, what it holds goes back to the debouncer.

* `Channel`, `Feed`: the queue, and the debouncer with what is under way.
* `Feed.tick`, `Feed.release`: what the task does at a tick, and with a batch that it holds.
* `Feed.receive`, `Feed.close`, `Feed.drain`: the other end of the queue.
* `Ticker`: when the ticks are.
* `Feeder`: the task, polled at times of a clock.
-/

namespace CodeGraph

/-- A bounded queue of batches, the oldest first. -/
structure Channel where
  capacity : Nat
  batches : List (List Change) := []
  closed : Bool := false
  deriving DecidableEq, Repr

/-- Whether there is room for another batch. -/
def Channel.hasRoom (c : Channel) : Bool := c.batches.length < c.capacity

/-- Puts a batch at the end of the queue. -/
def Channel.push (c : Channel) (batch : List Change) : Channel :=
  { c with batches := c.batches ++ [batch] }

/-- A debouncer, the queue that its batches go to, and the batch that waits for room in it. -/
structure Feed where
  debouncer : Debouncer
  channel : Channel
  held : Option (List Change) := none
  /-- Whether the task is over. -/
  ended : Bool := false

namespace Feed

/-- Hands a batch to the queue, or holds it while there is no room. -/
def offer (f : Feed) (batch : List Change) : Feed :=
  if f.channel.hasRoom then { f with channel := f.channel.push batch }
  else { f with held := some batch }

/-- What the task does at a tick. -/
def tick (f : Feed) (clock : Nat) : Feed :=
  if f.ended || f.held.isSome then f
  else if f.channel.closed then { f with ended := true }
  else
    match f.debouncer.poll clock with
    | (d, none) => { f with debouncer := d }
    | (d, some batch) => { f with debouncer := d }.offer batch

/-- What the task does with a batch that it holds: once the queue is closed it goes back to the
debouncer, and once there is room it goes on. -/
def release (f : Feed) (clock : Nat) : Feed :=
  match f.held with
  | none => f
  | some batch =>
    if f.channel.closed then
      { f with debouncer := f.debouncer.requeue clock batch, held := none, ended := true }
    else if f.channel.hasRoom then { f with channel := f.channel.push batch, held := none }
    else f

/-- Takes the oldest batch from the queue. -/
def receive (f : Feed) : Feed × Option (List Change) :=
  match f.channel.batches with
  | [] => (f, none)
  | batch :: rest => ({ f with channel := { f.channel with batches := rest } }, some batch)

/-- Closes the queue; what it holds stays. -/
def close (f : Feed) : Feed := { f with channel := { f.channel with closed := true } }

/-- Puts every batch of the queue back into the debouncer, one after another, the oldest first. -/
def drain (f : Feed) (clock : Nat) : Feed :=
  { f with
    debouncer := f.channel.batches.foldl (fun d batch => d.requeue clock batch) f.debouncer
    channel := { f.channel with batches := [] } }

/-- Whether a batch is held that could go on. -/
def canRelease (f : Feed) : Bool := f.held.isSome && (f.channel.closed || f.channel.hasRoom)

end Feed

/-! ## Ticks -/

/-- A timer with a period, in microseconds, and the time at which it is next due. -/
structure Ticker where
  period : Nat
  due : Option Nat := none
  deriving DecidableEq, Repr

namespace Ticker

/-- The timer of a debouncer: four ticks in a quiet period, but none sooner than ten milliseconds
after another. -/
def ofQuiet (quiet : Nat) : Ticker := { period := max (quiet * 250) 10000 }

/-- The first whole millisecond at which a timer that is due then goes off. -/
def wholeMs (due : Nat) : Nat := (due + 999) / 1000

/-- When the timer is next due, if it has started. -/
def wake? (t : Ticker) : Option Nat := t.due.map wholeMs

/-- The timer after it went off at a time: a tick that comes more than five milliseconds late puts
off those after it. -/
def advance (t : Ticker) (due now : Nat) : Ticker :=
  let late := due + 5000 < now * 1000
  { t with due := some ((if late then now * 1000 else due) + t.period) }

end Ticker

/-- The task that feeds the queue. -/
structure Feeder where
  feed : Feed
  ticker : Ticker

namespace Feeder

/-- The task over a debouncer and a queue with some room. -/
def ofDebouncer (d : Debouncer) (capacity : Nat) : Feeder :=
  { feed := { debouncer := d, channel := { capacity } }, ticker := .ofQuiet d.quiet }

/-- Lets the task act at a time, while the debouncer's clock shows another. -/
def poll (f : Feeder) (clock now : Nat) : Feeder :=
  let feed := f.feed.release clock
  if feed.held.isSome || feed.ended then { f with feed }
  else
    let due := f.ticker.due.getD (now * 1000)
    if Ticker.wholeMs due ≤ now then { feed := feed.tick clock, ticker := f.ticker.advance due now }
    else { feed, ticker := { f.ticker with due := some due } }

/-- When the task next has something to do, if that is known. -/
def wake? (f : Feeder) : Option Nat :=
  if f.feed.ended || f.feed.held.isSome then none else f.ticker.wake?

/-- Lets the task act at its ticks before a time; `fuel` bounds their number. -/
def runUntil : (fuel : Nat) → Feeder → (clock stop : Nat) → Feeder
  | 0, f, _, _ => f
  | fuel + 1, f, clock, stop =>
    match f.wake? with
    | some t => if t < stop then runUntil fuel (f.poll clock t) clock stop else f
    | none => f

/-- Lets time pass from one moment to another, with the task acting in between. The moment at the
end does not belong to it. -/
def pass (f : Feeder) (clock start duration : Nat) : Feeder :=
  if duration = 0 then f
  else runUntil (duration / 10 + 2) (f.poll clock start) clock (start + duration)

end Feeder

end CodeGraph

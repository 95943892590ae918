import CodeGraph.Update.Batch
import CodeGraph.Watch.Feed
import CodeGraph.Watch.Filter

/-!
# Sessions

A project at work: batches that wait for one another, the tasks of a watch service, and a clock. Only
one task acts at a time, those that can act take turns in order, and time passes only while none can.
The one who waits for a result goes before all others.

* `Scene`: the collaborators, and how long the analyzer takes.
* `Work`: one batch, from its wait for the project to its end.
* `Service`, `Job`, `Session`: the tasks and what they share.
* `Session.drive`: lets the tasks act until a result is there.
* `Session.process`, `Session.spawn`, `Session.join`, `Session.hydrate`: batches.
* `Session.openService`, `Session.startService`, `Session.stopService`, `Session.flushService`,
  `Session.dropService`: the watch service.
-/

namespace CodeGraph

/-- How long an answer takes. -/
inductive Delay where
  | none
  | after (ms : Nat)
  | never
  deriving DecidableEq, Repr

/-- What the collaborators do, and how long the analyzer takes. -/
structure Scene where
  world : World
  delay : Request → Delay

/-- Whether an answer has to be waited for. -/
def Scene.holds (scene : Scene) (request : Request) : Bool :=
  match scene.delay request with
  | .none => false
  | .after ms => ms != 0
  | .never => true

/-- A task; zero stands for the one who waits for a result. -/
abbrev TaskId := Nat

/-- The one who waits for a result. -/
def foreground : TaskId := 0

/-- One batch. -/
inductive Work where
  | fresh (changes : List Change) (cascade : Bool)
  /-- It waits until no other batch is under way. -/
  | queued (changes : List Change) (cascade : Bool)
  /-- It waits for the analyzer, until a time if that is known. -/
  | analyzing (batch : Batch) (file : InFlight) (reply : Reply) (wake : Option Nat)
  | done (summary : Summary)

/-- The time until which a batch waits. -/
def Work.wake? : Work → Option Nat
  | analyzing _ _ _ wake => wake
  | _ => none

/-- The task that applies the batches of a watch service. -/
inductive Worker where
  | waiting
  | applying (work : Work)
  | finished

/-- What a task does. -/
inductive Job where
  | batch (work : Work)
  /-- Feeds the batches of the watch service. -/
  | ticker
  | worker (state : Worker)

/-- A watch service. -/
structure Service where
  filter : PathFilter
  feeder : Feeder
  /-- Whether its clock is moved by hand; any other stands still. -/
  manualClock : Bool
  clock : Nat := 0
  /-- The two tasks, while it runs: the one that feeds and the one that applies. -/
  tasks : Option (TaskId × TaskId) := none
  /-- Whether the applying task is to stop. -/
  stopping : Bool := false

/-- A project with its tasks. -/
structure Session where
  project : Project
  /-- The present time, in milliseconds. -/
  time : Nat := 0
  /-- Who may change the project. -/
  holder : Option TaskId := none
  /-- Who waits to change the project. -/
  waiters : List TaskId := []
  /-- The tasks that can act, in order. -/
  ready : List TaskId := []
  jobs : List (TaskId × Job) := []
  /-- The tasks that are to end when they next act. -/
  aborted : List TaskId := []
  nextId : TaskId := 1
  service : Option Service := none
  /-- The batch that was started last and not waited for. -/
  handle : Option TaskId := none

namespace Session

/-! ## Tasks -/

/-- Notes that a task can act. -/
def wake (s : Session) (id : TaskId) : Session :=
  if id = foreground ∨ s.ready.contains id then s else { s with ready := s.ready ++ [id] }

/-- Notes that one of two tasks of the service can act. -/
def wakeTask (s : Session) (choose : TaskId × TaskId → TaskId) : Session :=
  match s.service.bind (·.tasks) with
  | some ids => s.wake (choose ids)
  | none => s

/-- The job of a task. -/
def job? (s : Session) (id : TaskId) : Option Job := (s.jobs.find? (·.1 == id)).map (·.2)

/-- Gives a task another job. -/
def setJob (s : Session) (id : TaskId) (job : Job) : Session :=
  { s with jobs := s.jobs.map fun j => if j.1 == id then (id, job) else j }

/-- Takes a task away. -/
def endJob (s : Session) (id : TaskId) : Session :=
  { s with
    jobs := s.jobs.filter (·.1 != id)
    aborted := s.aborted.filter (· != id)
    ready := s.ready.filter (· != id) }

/-- Adds a task, which can act at once. -/
def addJob (s : Session) (job : Job) : Session × TaskId :=
  ({ s with jobs := s.jobs ++ [(s.nextId, job)], nextId := s.nextId + 1 }.wake s.nextId, s.nextId)

/-- Asks a task to end when it next acts. -/
def abortJob (s : Session) (id : TaskId) : Session :=
  if (s.job? id).isSome then { s with aborted := id :: s.aborted }.wake id else s

/-! ## Batches -/

/-- Passes the project on to the task that has waited longest. -/
def passOn (s : Session) : Session :=
  match s.waiters with
  | [] => { s with holder := none }
  | id :: rest => { s with holder := some id, waiters := rest }.wake id

/-- Goes on with a batch. -/
def goOn (scene : Scene) (s : Session) (b : Batch) : Session × Work :=
  match b.run scene.world scene.holds s.project with
  | (p, b, .ended) =>
    let (p, summary) := p.finish scene.world b
    ({ s with project := p }.passOn, .done summary)
  | (p, b, .waits f request reply) =>
    let wake := match scene.delay request with
      | .after ms => some (s.time + ms)
      | _ => none
    ({ s with project := p }, .analyzing b f reply wake)

/-- Begins a batch. -/
def beginWork (scene : Scene) (s : Session) (changes : List Change) (cascade : Bool) :
    Session × Work :=
  let (p, b) := s.project.begin changes cascade
  goOn scene { s with project := p } b

/-- Lets a batch act. -/
def pollWork (scene : Scene) (s : Session) (id : TaskId) : Work → Session × Work
  | .fresh changes cascade =>
    if s.holder.isNone then beginWork scene { s with holder := some id } changes cascade
    else ({ s with waiters := s.waiters ++ [id] }, .queued changes cascade)
  | .queued changes cascade =>
    if s.holder = some id then beginWork scene s changes cascade else (s, .queued changes cascade)
  | .analyzing b f reply (some t) =>
    if t ≤ s.time then
      let (p, b) := b.answer scene.world s.project f reply
      goOn scene { s with project := p } b
    else (s, .analyzing b f reply (some t))
  | work => (s, work)

/-- Gives a batch up, wherever it is. -/
def dropWork (s : Session) (id : TaskId) : Work → Session
  | .queued .. =>
    if s.holder = some id then s.passOn else { s with waiters := s.waiters.filter (· != id) }
  | .analyzing .. => { s with project := { s.project with updating := false } }.passOn
  | _ => s

/-! ## The tasks of the service -/

/-- Lets the feeding task act. -/
def pollTicker (s : Session) : Session :=
  match s.service with
  | none => s
  | some v =>
    let feeder := v.feeder.poll v.clock s.time
    let s := { s with service := some { v with feeder } }
    if feeder.feed.channel.batches.isEmpty then s else s.wakeTask (·.2)

/-- Changes what the service feeds, and lets the feeding task act if that frees a held batch. -/
def setFeed (s : Session) (v : Service) (feed : Feed) : Session :=
  let s := { s with service := some { v with feeder := { v.feeder with feed } } }
  if feed.canRelease then s.wakeTask (·.1) else s

/-- Lets the applying task act: it takes batches until there is none, and when it is to stop it puts
back those that it has not taken. `fuel` bounds the number of batches. -/
def pollWorker (scene : Scene) (id : TaskId) : (fuel : Nat) → Session → Worker → Session × Worker
  | 0, s, state => (s, state)
  | fuel + 1, s, .waiting =>
    match s.service with
    | none => (s, .finished)
    | some v =>
      if v.stopping then (s.setFeed v (v.feeder.feed.close.drain v.clock), .finished)
      else
        match v.feeder.feed.receive with
        | (_, none) => (s, .waiting)
        | (feed, some batch) =>
          pollWorker scene id fuel (s.setFeed v feed)
            (.applying (.fresh batch s.project.config.cascade))
  | fuel + 1, s, .applying work =>
    match pollWork scene s id work with
    | (s, .done _) => pollWorker scene id fuel s .waiting
    | (s, work) => (s, .applying work)
  | _ + 1, s, .finished => (s, .finished)

/-- How often the applying task can go on at once. -/
def workerBound (s : Session) : Nat :=
  match s.service with
  | some v => 2 * v.feeder.feed.channel.batches.length + 3
  | none => 3

/-- Takes a task away that was asked to end. -/
def dropJob (s : Session) (id : TaskId) : Session :=
  let s' := s.endJob id
  match s.job? id with
  | some (.batch work) => s'.dropWork id work
  | some (.worker (.applying work)) => s'.dropWork id work
  | _ => s'

/-- Lets a task act. -/
def pollJob (scene : Scene) (s : Session) (id : TaskId) : Session :=
  if s.aborted.contains id then s.dropJob id
  else
    match s.job? id with
    | some (.batch work) =>
      let (s, work) := pollWork scene s id work
      s.setJob id (.batch work)
    | some .ticker => s.pollTicker
    | some (.worker state) =>
      let (s, state) := pollWorker scene id s.workerBound s state
      s.setJob id (.worker state)
    | none => s

/-- Lets the tasks that can act take turns; `fuel` bounds the number of turns. -/
def runReady (scene : Scene) : (fuel : Nat) → Session → Session
  | 0, s => s
  | fuel + 1, s =>
    match s.ready with
    | [] => s
    | id :: rest => runReady scene fuel (pollJob scene { s with ready := rest } id)

/-- The time until which a task waits. -/
def wakeOf? (s : Session) : Job → Option Nat
  | .batch work => work.wake?
  | .ticker => s.service.bind (·.feeder.wake?)
  | .worker (.applying work) => work.wake?
  | .worker _ => none

/-- Moves the time on to a moment, at which tasks that waited for it can act. -/
def moveTo (s : Session) (t : Nat) : Session :=
  s.jobs.foldl (fun s j =>
    match s.wakeOf? j.2 with
    | some due => if due ≤ t then s.wake j.1 else s
    | none => s) { s with time := max s.time t }

/-! ## Waiting for a result -/

/-- What someone waits for. -/
inductive Goal where
  | time (moment : Nat)
  | work (work : Work)
  /-- The end of a batch that was started before. -/
  | job (id : TaskId)
  /-- The end of the service's tasks. -/
  | stop
  | hydration (queued : Bool) (result : Option (Except Error Unit))

/-- Takes over the stored graph, and passes the project on. -/
def hydrateNow (scene : Scene) (s : Session) : Session × Goal :=
  let (p, result) := s.project.hydrate scene.world
  ({ s with project := p }.passOn, .hydration true (some result))

/-- Whether the tasks of the service are over. -/
def tasksOver (s : Session) : Bool :=
  match s.service with
  | none => true
  | some v =>
    match v.tasks with
    | none => true
    | some (_, worker) =>
      v.feeder.feed.ended &&
        match s.job? worker with
        | some (.worker .finished) => true
        | some _ => false
        | none => true

/-- Lets the one who waits act: what is left to wait for, and whether the goal is reached. -/
def pollGoal (scene : Scene) (s : Session) : Goal → Session × Goal × Bool
  | .time t => (s, .time t, decide (t ≤ s.time))
  | .work w =>
    let (s, w) := pollWork scene s foreground w
    let reached := match w with
      | .done _ => true
      | _ => false
    (s, .work w, reached)
  | .job id =>
    let reached := match s.job? id with
      | some (.batch (.done _)) => true
      | none => true
      | _ => false
    (s, .job id, reached)
  | .stop => (s, .stop, s.tasksOver)
  | .hydration _ (some result) => (s, .hydration true (some result), true)
  | .hydration false none =>
    if s.holder.isNone then
      let (s, goal) := hydrateNow scene { s with holder := some foreground }
      (s, goal, true)
    else ({ s with waiters := s.waiters ++ [foreground] }, .hydration true none, false)
  | .hydration true none =>
    if s.holder = some foreground then
      let (s, goal) := hydrateNow scene s
      (s, goal, true)
    else (s, .hydration true none, false)

/-- The time until which the one who waits has nothing to do. -/
def Goal.wake? : Goal → Option Nat
  | time t => some t
  | work w => w.wake?
  | _ => none

/-- The next moment at which someone has something to do. -/
def nextMoment? (s : Session) (goal : Goal) : Option Nat :=
  (goal.wake?.toList ++ s.jobs.filterMap fun j => s.wakeOf? j.2).min?

/-- How many turns tasks may take while no time passes. -/
def turnBound : Nat := 100000

/-- Lets tasks act and time pass until a goal is reached, or nothing is left to do; `fuel` bounds how
often time moves on. -/
def driveWithin (scene : Scene) : (fuel : Nat) → Session → Goal → Session × Goal
  | 0, s, goal => (s, goal)
  | fuel + 1, s, goal =>
    match pollGoal scene s goal with
    | (s, goal, true) => (s, goal)
    | (s, goal, false) =>
      let s := runReady scene turnBound s
      match pollGoal scene s goal with
      | (s, goal, true) => (s, goal)
      | (s, goal, false) =>
        if s.ready.isEmpty then
          match s.nextMoment? goal with
          | some t => driveWithin scene fuel (s.moveTo t) goal
          | none => (s, goal)
        else driveWithin scene fuel s goal

/-- How often time may move on while a goal is waited for. -/
def moveBound : Nat := 1000000

/-- Lets tasks act and time pass until a goal is reached. -/
def drive (scene : Scene) (s : Session) (goal : Goal) : Session × Goal :=
  driveWithin scene moveBound s goal

/-! ## Commands -/

/-- Lets time pass. -/
def waitFor (scene : Scene) (s : Session) (ms : Nat) : Session :=
  (s.drive scene (.time (s.time + ms))).1

/-- Applies a batch and waits for its end. -/
def process (scene : Scene) (s : Session) (changes : List Change) (cascade : Bool) :
    Session × Option Summary :=
  match s.drive scene (.work (.fresh changes cascade)) with
  | (s, .work (.done summary)) => (s, some summary)
  | (s, _) => (s, none)

/-- Analyzes files again, with those that refer to them if so configured. -/
def updateFiles (scene : Scene) (s : Session) (paths : List Path) : Session × Option Summary :=
  s.process scene (paths.map .modified) s.project.config.cascade

/-- Analyzes new files. -/
def indexFiles (scene : Scene) (s : Session) (paths : List Path) : Session × Option Summary :=
  s.process scene (paths.map .created) false

/-- Takes over the stored graph, once no batch is under way. -/
def hydrate (scene : Scene) (s : Session) : Session × Except Error Unit :=
  match s.drive scene (.hydration false none) with
  | (s, .hydration _ (some result)) => (s, result)
  | (s, _) => (s, .ok ())

/-- Starts a batch without waiting for it. -/
def spawn (s : Session) (changes : List Change) (cascade : Bool) : Session :=
  let (s, id) := s.addJob (.batch (.fresh changes cascade))
  { s with handle := some id }

/-- Waits for the batch that was started last: its summary, unless it was given up. There is no
answer if no batch was started. -/
def join (scene : Scene) (s : Session) : Option (Session × Option Summary) :=
  s.handle.map fun id =>
    let (s, _) := s.drive scene (.job id)
    let summary := match s.job? id with
      | some (.batch (.done summary)) => some summary
      | _ => none
    ({ s.endJob id with handle := none }, summary)

/-- Gives the batch up that was started last. -/
def abort (s : Session) : Option Session :=
  s.handle.map fun id =>
    match s.job? id with
    | some (.batch (.done _)) => s
    | _ => s.abortJob id

/-- Changes whether file events feed the project. -/
def setWatching (s : Session) (on : Bool) : Session :=
  { s with project := { s.project with watching := on } }

/-- Takes the watch service away; its tasks end when they next act. -/
def dropService (s : Session) : Session :=
  match s.service with
  | none => s
  | some v =>
    let s := match v.tasks with
      | some (ticker, worker) => (s.abortJob ticker).abortJob worker
      | none => s
    { s with service := none }.setWatching false

/-- How many batches can wait to be applied. -/
def batchCapacity : Nat := 16

/-- A new watch service, in the place of any other. Without a quiet period of its own it takes the
configured one, and a clock that stands still. -/
def openService (s : Session) (quiet : Option Nat) : Except Error Session := do
  let p := s.project
  let filter ← PathFilter.ofConfig p.disk p.root p.config
  let d : Debouncer := { quiet := quiet.getD p.config.debounceMs.toNat }
  let service : Service :=
    { filter, feeder := .ofDebouncer d batchCapacity, manualClock := quiet.isSome }
  .ok { s.dropService with service := some service }

/-- Starts the watch service, unless it runs. -/
def startService (s : Session) (v : Service) : Session :=
  if v.tasks.isSome then s
  else
    let (s, ticker) := s.addJob .ticker
    let (s, worker) := s.addJob (.worker .waiting)
    let v := { v with
      feeder := .ofDebouncer v.feeder.feed.debouncer batchCapacity
      tasks := some (ticker, worker)
      stopping := false }
    { s with service := some v }.setWatching true

/-- Takes the finished tasks of the service away. -/
def clearTasks (s : Session) : Session :=
  match s.service with
  | none => s
  | some v =>
    match v.tasks with
    | none => s
    | some (ticker, worker) =>
      { (s.endJob ticker).endJob worker with
        service := some { v with tasks := none, stopping := false } }

/-- Stops the watch service: the batch under way is applied to its end, and others go back to the
debouncer. -/
def stopService (scene : Scene) (s : Session) (v : Service) : Session :=
  if v.tasks.isNone then s.setWatching false
  else
    let s := { s with service := some { v with stopping := true } }.wakeTask (·.2)
    ((s.drive scene .stop).1.clearTasks).setWatching false

/-- Applies what the debouncer of the service holds. -/
def flushService (scene : Scene) (s : Session) (v : Service) : Session :=
  let (d, batch) := v.feeder.feed.debouncer.flush
  let feed := { v.feeder.feed with debouncer := d }
  let s := { s with service := some { v with feeder := { v.feeder with feed } } }
  match batch with
  | none => s
  | some batch => (s.process scene batch s.project.config.cascade).1

end Session

end CodeGraph

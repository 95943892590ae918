import CodeGraph.Update.Project

/-!
# Batches

A batch of changes is handled file by file. A file whose declarations changed pulls in the files
that refer to them, each once. A file that fails does not stop the batch; a request to cancel does,
before the next file.

* `Batch`: a batch under way.
* `Batch.next`: handles the next file up to its analysis.
* `Batch.answer`: goes on with the answer of the analyzer.
* `Batch.run`: goes on until an answer has to be waited for.
* `Project.begin`, `Project.finish`, `Project.processChanges`: a whole batch.
-/

namespace CodeGraph

/-- A file whose old data is gone and whose analysis is awaited. -/
structure InFlight where
  change : Change
  cascaded : Bool
  /-- The declarations that were taken out. -/
  seed : List NodeId
  orphaned : List Edge

/-- A batch under way. -/
structure Batch where
  cascade : Bool
  /-- The changes still to be handled, and whether each was pulled in. -/
  queue : List (Change × Bool)
  /-- The paths that were ever in the queue. -/
  queued : PathSet
  /-- The paths that were taken from it. -/
  processed : PathSet := ∅
  summary : Summary

/-- What comes of handling the next file. -/
inductive Progress where
  /-- There is none left. -/
  | finished
  /-- It is done. -/
  | handled
  /-- Its analysis is awaited. -/
  | awaits (file : InFlight)

namespace Batch

/-- The files that refer to one of the declarations and have not been seen, in order. -/
def dependents (b : Batch) (r : References) (seed : List NodeId) : List Path :=
  ((r.filesOfAll seed).filter fun key _ =>
    !b.processed.contains key && !b.queued.contains key).values

/-- Puts files at the end of the queue. -/
def enqueue (b : Batch) (files : List Path) : Batch :=
  { b with
    queue := b.queue ++ files.map fun f => (.modified f, true)
    queued := files.foldl (fun s f => s.insert f.parts) b.queued }

/-- Notes that a file was handled, and pulls in those that refer to its declarations. -/
def succeed (b : Batch) (r : References) (path : Path) (cascaded : Bool) (seed : List NodeId) :
    Batch :=
  let b := { b with summary := { b.summary with
    updatedFiles := b.summary.updatedFiles ++ [path]
    cascadedFiles := b.summary.cascadedFiles ++ (if cascaded then [path] else []) } }
  if b.cascade then b.enqueue (b.dependents r seed) else b

/-- Notes that a file failed. -/
def fail (b : Batch) (p : Project) (path : Path) (e : Error) : Project × Batch :=
  (p.publish (.failed path e),
   { b with summary := { b.summary with failedFiles := b.summary.failedFiles ++ [path] } })

/-- Takes everything out that is held for the paths of a change, up to the first failure. -/
def removeStale (w : World) : List Path → Project → Summary →
    Project × Summary × Except Error (List NodeId × List Edge)
  | [], p, s => (p, s, .ok ([], []))
  | path :: rest, p, s =>
    match p.removeFile w s path with
    | (p, s, .error e) => (p, s, .error e)
    | (p, s, .ok removal) =>
      match removeStale w rest p s with
      | (p, s, .error e) => (p, s, .error e)
      | (p, s, .ok (nodes, orphaned)) =>
        (p, s, .ok (removal.nodes ++ nodes, removal.orphaned ++ orphaned))

/-- Handles a change up to the analysis of its file. -/
def start (w : World) (b : Batch) (p : Project) (c : Change) (cascaded : Bool) :
    Project × Batch × Progress :=
  match removeStale w (c.source?.toList ++ [c.path]) p b.summary with
  | (p, s, .error e) =>
    let (p, b) := { b with summary := s }.fail p c.path e
    (p, b, .handled)
  | (p, s, .ok (seed, orphaned)) =>
    let b := { b with summary := s }
    if c.isDeletion then (p, b.succeed p.references c.path cascaded seed, .handled)
    else (p, b, .awaits ⟨c, cascaded, seed, orphaned⟩)

/-- Handles the next file up to its analysis. A path is handled once. -/
def next (w : World) (b : Batch) (p : Project) : Project × Batch × Progress :=
  match b.queue with
  | [] => (p, b, .finished)
  | (c, cascaded) :: rest =>
    if p.cancelled then
      (p, { b with queue := rest, summary := { b.summary with cancelled := true } }, .finished)
    else if b.processed.contains c.path.parts then (p, { b with queue := rest }, .handled)
    else
      let b := { b with queue := rest, processed := b.processed.insert c.path.parts }
      b.start w p c cascaded

/-- Goes on with the answer of the analyzer. -/
def answer (w : World) (b : Batch) (p : Project) (f : InFlight) (reply : Reply) :
    Project × Batch :=
  let p := if reply.cancels then p.cancel else p
  let path := f.change.path
  match reply.outcome with
  | .error cause => b.fail p path (.analysis path cause)
  | .ok output =>
    match p.integrate w b.summary path output f.orphaned with
    | (p, s, .error e) => { b with summary := s }.fail p path e
    | (p, s, .ok ()) =>
      (p, { b with summary := s }.succeed p.references path f.cascaded
        (f.seed ++ output.nodes.map Node.id))

/-- A batch that is over, or one that waits for an answer. -/
inductive Pause where
  | ended
  | waits (file : InFlight) (request : Request) (reply : Reply)

/-- Asks the analyzer about a file. -/
def ask (w : World) (p : Project) (f : InFlight) : Project × Request × Reply :=
  let request := p.requestFor f.change.path
  ({ p with requests := p.requests ++ [request] }, request, w.analyze p.requests.length request)

/-- Goes on until an answer is held back or the batch is over; `fuel` bounds the number of files. -/
def runWithin (w : World) (holds : Request → Bool) :
    (fuel : Nat) → Batch → Project → Project × Batch × Pause
  | 0, b, p => (p, b, .ended)
  | fuel + 1, b, p =>
    match b.next w p with
    | (p, b, .finished) => (p, b, .ended)
    | (p, b, .handled) => runWithin w holds fuel b p
    | (p, b, .awaits f) =>
      let (p, request, reply) := ask w p f
      if holds request then (p, b, .waits f request reply)
      else
        let (p, b) := b.answer w p f reply
        runWithin w holds fuel b p

/-- How many files a batch can still handle: those in the queue, and those that refer to others. -/
def bound (b : Batch) (p : Project) : Nat := b.queue.length + p.references.fileCount + 1

/-- Goes on until an answer is held back or the batch is over. -/
def run (w : World) (holds : Request → Bool) (b : Batch) (p : Project) : Project × Batch × Pause :=
  runWithin w holds (b.bound p) b p

end Batch

namespace Project

/-- A change with its paths as seen from the root. -/
def normalizeChange (root : ProjectRoot) (c : Change) : Change :=
  match c.kind with
  | .renamed source => .renamed (root.relative source) (root.relative c.path)
  | kind => ⟨root.relative c.path, kind⟩

/-- Begins a batch of changes. -/
def begin (p : Project) (changes : List Change) (cascade : Bool) : Project × Batch :=
  let settled := settle (changes.map (normalizeChange p.root))
  let sequence := p.sequence + 1
  ({ p with cancelled := false, updating := true, sequence },
   { cascade
     queue := settled.map fun c => (c, false)
     queued := settled.foldl (fun s c => s.insert c.path.parts) ∅
     summary := { sequence } })

/-- Publishes that the files of a batch could not be stored. -/
def failAll (p : Project) (s : Summary) (cause : Cause) : Project × Summary :=
  (s.updatedFiles.foldl (fun p f => p.publish (.failed f (.persistence f cause))) p,
   { s with updatedFiles := [], failedFiles := s.failedFiles ++ s.updatedFiles })

/-- Makes what a batch stored durable. -/
def flushBatch (w : World) (p : Project) (s : Summary) : Project × Summary :=
  if s.updatedFiles.isEmpty then (p, s)
  else
    match p.call w .flush (withDisk fun r d => r.flushWith w.refusesStep d w.now) with
    | (p, .ok ()) => (p, s)
    | (p, .error cause) => p.failAll s cause

/-- Ends a batch. -/
def finish (w : World) (p : Project) (b : Batch) : Project × Summary :=
  let (p, s) := p.flushBatch w b.summary
  let p := if s.isEmpty then p else p.publish (.completed s)
  ({ p with updating := false }, s)

/-- Applies a batch of changes. -/
def processChanges (w : World) (p : Project) (changes : List Change) (cascade : Bool) :
    Project × Summary :=
  let (p, b) := p.begin changes cascade
  let (p, b, _) := b.run w (fun _ => false) p
  p.finish w b

/-- Analyzes files again, with those that refer to them if so configured. -/
def updateFiles (w : World) (p : Project) (paths : List Path) : Project × Summary :=
  p.processChanges w (paths.map .modified) p.config.cascade

/-- Analyzes new files. -/
def indexFiles (w : World) (p : Project) (paths : List Path) : Project × Summary :=
  p.processChanges w (paths.map .created) false

end Project

end CodeGraph

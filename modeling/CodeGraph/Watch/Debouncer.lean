import CodeGraph.Change.Set

/-!
# Debouncing

A debouncer collects changes and gives them out as one batch once no new one has come for a quiet
period. Times are milliseconds of a clock that the caller reads.

* `Debouncer`: the pending changes and the time of the last one.
* `Debouncer.push`, `Debouncer.pushRename`, `Debouncer.requeue`: what goes in.
* `Debouncer.poll`, `Debouncer.flush`: what comes out.
* `Debouncer.deadline?`: when the pending batch is due.
-/

namespace CodeGraph

/-- Changes that wait for a quiet period. -/
structure Debouncer where
  /-- The quiet period, in milliseconds. -/
  quiet : Nat
  pending : ChangeSet := {}
  lastChange : Option Nat := none

namespace Debouncer

/-- Whether anything is pending. -/
def isAccumulating (d : Debouncer) : Bool := !d.pending.isEmpty

/-- Records a change and starts the quiet period anew. -/
def push (d : Debouncer) (now : Nat) (c : Change) : Debouncer :=
  { d with pending := d.pending.push c, lastChange := some now }

/-- Puts a batch that could not be delivered in front of what has come since. -/
def requeue (d : Debouncer) (now : Nat) (batch : List Change) : Debouncer :=
  { d with
    pending := ChangeSet.ofList (batch ++ d.pending.toList)
    lastChange := d.lastChange <|> some now }

/-- The changes that a rename is recorded as. Between two relevant paths with one extension it is a
rename; else it deletes the old path and creates the new one, each if that path is relevant. -/
def renameChanges (source target : Path) (isRelevant : Path → Bool) : List Change :=
  if isRelevant source && isRelevant target && source.extension? == target.extension? then
    [.renamed source target]
  else
    (if isRelevant source then [.deleted source] else []) ++
      (if isRelevant target then [.created target] else [])

/-- Records a rename. -/
def pushRename (d : Debouncer) (now : Nat) (source target : Path) (isRelevant : Path → Bool) :
    Debouncer :=
  (renameChanges source target isRelevant).foldl (fun d c => d.push now c) d

/-- Gives out whatever is pending. -/
def flush (d : Debouncer) : Debouncer × Option (List Change) :=
  if d.pending.isEmpty then ({ d with lastChange := none }, none)
  else ({ d with pending := {}, lastChange := none }, some d.pending.toList)

/-- Gives out the pending batch if the quiet period is over. -/
def poll (d : Debouncer) (now : Nat) : Debouncer × Option (List Change) :=
  match d.lastChange with
  | none => (d, none)
  | some last => if now - last < d.quiet then (d, none) else d.flush

/-- When the pending batch is due. -/
def deadline? (d : Debouncer) : Option Nat :=
  if d.pending.isEmpty then none else d.lastChange.map (· + d.quiet)

/-- The text of a period of milliseconds: in milliseconds below a second, else in seconds with up
to three places. -/
def periodText (ms : Nat) : String :=
  if ms = 0 then "0ns"
  else if ms < 1000 then s!"{ms}ms"
  else
    let places := [ms / 100 % 10, ms / 10 % 10, ms % 10]
    let kept := (places.reverse.dropWhile (· == 0)).reverse
    let fraction := if kept.isEmpty then "" else "." ++ String.join (kept.map toString)
    s!"{ms / 1000}{fraction}s"

/-- A one-line description. -/
def describe (d : Debouncer) : String :=
  s!"ChangeCoalescer \x7b quiet_period: {periodText d.quiet}, pending: {d.pending.size} \x7d"

end Debouncer

end CodeGraph

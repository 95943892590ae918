import CodeGraph.Error

/-!
# What a batch did

* `Summary`: the files that a batch handled, and what it added and removed.
* `UpdateEvent`: a notice to those who follow the updates.
* `Drained`: the notices that a follower gets, and how many it missed.
-/

namespace CodeGraph

/-- The outcome of one batch. -/
structure Summary where
  /-- The number of the batch, counted from one. -/
  sequence : Nat
  /-- The files that were handled successfully, in order. -/
  updatedFiles : List Path := []
  /-- The files that were handled because they refer to another one. -/
  cascadedFiles : List Path := []
  failedFiles : List Path := []
  nodesAdded : Nat := 0
  nodesRemoved : Nat := 0
  edgesAdded : Nat := 0
  edgesRemoved : Nat := 0
  /-- Whether the batch stopped before its end. -/
  cancelled : Bool := false
  deriving DecidableEq, Repr

/-- Whether no file was handled. -/
def Summary.isEmpty (s : Summary) : Bool := s.updatedFiles.isEmpty && s.failedFiles.isEmpty

/-- A notice about updates. -/
inductive UpdateEvent where
  /-- A batch that handled some file is over. -/
  | completed (summary : Summary)
  /-- A file failed; the batch went on. -/
  | failed (file : Path) (error : Error)
  deriving DecidableEq, Repr

/-- How many notices are kept for a follower. -/
def eventCapacity : Nat := 256

/-- What a follower gets of the notices since it last asked. -/
structure Drained where
  /-- How many of the oldest notices were lost. -/
  missed : Nat
  events : List UpdateEvent
  deriving DecidableEq, Repr

/-- The notices that a follower gets: of too many, the newest. -/
def Drained.ofEvents (events : List UpdateEvent) : Drained :=
  let missed := events.length - eventCapacity
  ⟨missed, events.drop missed⟩

end CodeGraph

import CodeGraph.Repository

/-!
# The collaborators of an update

An analyzer reads a source file and says what it declares; a repository stores the graph. Neither is
under the control of an update, so what they do is a parameter of it.

* `Request`, `Output`, `Reply`: what the analyzer is asked, and what it answers.
* `Call`: what the repository is asked to do.
* `World`: what the collaborators do.
-/

namespace CodeGraph

/-- What the analyzer is told about a file. -/
structure Request where
  /-- The file, as seen from the root. -/
  path : Path
  /-- Where the file lies. -/
  location : Path
  /-- The symbols known so far. -/
  symbols : List (String × NodeId)
  /-- The declarations in the graph. -/
  ids : List NodeId
  includeLocals : Bool
  deriving DecidableEq, Repr

/-- What the analyzer finds in a file. -/
structure Output where
  nodes : List Node := []
  edges : List Edge := []
  /-- The symbols that the file adds. -/
  symbols : List (String × NodeId) := []
  deriving DecidableEq, Repr

/-- The analyzer's answer. -/
structure Reply where
  outcome : Except Cause Output
  /-- Whether the batch was asked to stop in the meantime. -/
  cancels : Bool := false

/-- What the repository is asked to do. -/
inductive Call where
  | setUp
  | load
  | saveNodes
  | saveEdges
  | deleteNodes (file : Path)
  | deleteEdges (file : Path)
  | flush
  deriving DecidableEq, Repr

/-- What the collaborators do. They may answer the same question differently each time, so they are
told how often they have been asked. -/
structure World where
  analyze : Nat → Request → Reply
  /-- The message with which the repository refuses a call, if it does. -/
  refusal? : Nat → Call → Option String
  /-- The steps of writing a file that the system refuses. -/
  refusesStep : Repository.SaveStep → Bool := fun _ => false
  /-- The text of the present time. -/
  now : String := ""

end CodeGraph

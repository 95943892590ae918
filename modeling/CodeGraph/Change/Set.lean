import CodeGraph.Change.Basic

/-!
# Pending changes

A set of pending changes holds one change per path, in the order in which the paths were first
seen. A rename keeps pointing at the oldest place whose data still has to go: a chain of renames
settles as one, and a rename that is overtaken by a deletion of its target leaves a deletion of its
source.

* `ChangeSet`: slots in order of first sight, with the position of each pending path.
* `ChangeSet.push`: records a newer change.
* `ChangeSet.toList`, `ChangeSet.ofList`: the settled changes, and settling a list.
-/

namespace CodeGraph

/-- Pending changes by slot; a slot is empty once its change was taken by a rename. -/
structure ChangeSet where
  slots : Array (Option Change) := #[]
  positions : PathMap Nat := ∅

namespace ChangeSet

/-- No changes. -/
def empty : ChangeSet := {}

/-- How many changes are pending. -/
def size (s : ChangeSet) : Nat := s.positions.size

/-- Whether nothing is pending. -/
def isEmpty (s : ChangeSet) : Bool := s.positions.isEmpty

/-- Whether a change of a path is pending. -/
def isPending (s : ChangeSet) (path : Path) : Bool := s.positions.contains path.parts

/-- The pending change of a path. -/
def get? (s : ChangeSet) (path : Path) : Option Change :=
  s.positions[path.parts]?.bind fun i => (s.slots[i]?).join

/-- Takes the pending change of a path out, with the number of its slot. -/
def take (s : ChangeSet) (path : Path) : ChangeSet × Option (Nat × Change) :=
  match s.positions[path.parts]? with
  | none => (s, none)
  | some i =>
    ({ slots := s.slots.setIfInBounds i none, positions := s.positions.erase path.parts },
     ((s.slots[i]?).join).map fun c => (i, c))

/-- Gives a change a slot of its own, after all others. -/
def append (s : ChangeSet) (c : Change) : ChangeSet :=
  { slots := s.slots.push (some c), positions := s.positions.insert c.path.parts s.slots.size }

/-- Puts a change into a slot. -/
def put (s : ChangeSet) (i : Nat) (c : Change) : ChangeSet :=
  { slots := s.slots.setIfInBounds i (some c), positions := s.positions.insert c.path.parts i }

/-- Takes the pending change of a rename's source out. If that was a rename too, the new one goes
back to its origin, unless a change of the origin is pending itself. -/
def subsume (s : ChangeSet) (c : Change) : ChangeSet × Change :=
  match c.source? with
  | none => (s, c)
  | some source =>
    match s.take source with
    | (s, some (_, previous)) =>
      match previous.source? with
      | some origin => if s.isPending origin then (s, c) else (s, .renamed origin c.path)
      | none => (s, c)
    | (s, none) => (s, c)

/-- Puts a change in the place of a pending one of the same path. A rename source that the result
no longer names is recorded as deleted, unless a change of it is pending. -/
def replace (s : ChangeSet) (i : Nat) (pending c : Change) : ChangeSet :=
  let merged := pending.merge c
  let s := s.put i merged
  match pending.source? with
  | none => s
  | some origin =>
    if (merged.source?.any fun kept => kept.same origin) || s.isPending origin then s
    else s.append (.deleted origin)

/-- Records a newer change. -/
def push (s : ChangeSet) (c : Change) : ChangeSet :=
  let (s, c) := s.subsume c
  match s.take c.path with
  | (s, none) => s.append c
  | (s, some (i, pending)) => s.replace i pending c

/-- The pending changes, in slot order. -/
def toList (s : ChangeSet) : List Change := s.slots.toList.filterMap id

/-- The set after recording the changes of a list in order. -/
def ofList (changes : List Change) : ChangeSet := changes.foldl push empty

end ChangeSet

/-- What a list of changes comes to. -/
def settle (changes : List Change) : List Change := (ChangeSet.ofList changes).toList

end CodeGraph

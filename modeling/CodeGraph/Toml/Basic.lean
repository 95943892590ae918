/-!
# TOML values and tables

A document is a table that grows line by line. A table remembers how it came to be, because that
decides what may still be added to it: a header may be given once, a table that is only implied by a
longer header may still get one of its own, and a table made by dotted keys takes dotted keys only.

* `Toml`, `Members`: values, and the members of a table.
* `Members.descend`: changes the table that a path of keys leads to.
* `Members.insertDotted`, `Members.openTable`, `Members.openItem`: the three kinds of addition.
-/

namespace CodeGraph

/-- How a table came to be. -/
inductive TableOrigin where
  /-- By a header of its own. -/
  | header
  /-- By a header of a table inside it. -/
  | implied
  /-- By dotted keys. -/
  | dotted
  deriving DecidableEq, Repr

/-- A value. Fractions and times are kept as they were written. -/
inductive Toml where
  | text (value : String)
  | integer (value : Int)
  | float (written : String)
  | boolean (value : Bool)
  | time (written : String)
  | array (items : List Toml)
  /-- A table written as a value; nothing can be added to it. -/
  | inline (members : List (String × Toml))
  | table (origin : TableOrigin) (members : List (String × Toml))
  /-- A list of tables, the newest first. -/
  | tables (items : List (List (String × Toml)))
  deriving Repr

/-- The members of a table. -/
abbrev Members := List (String × Toml)

namespace Members

/-- The value of a key. -/
def get? (ms : Members) (key : String) : Option Toml := (ms.find? (·.1 == key)).map (·.2)

/-- Gives a key a value. -/
def set (ms : Members) (key : String) (value : Toml) : Members :=
  match ms with
  | [] => [(key, value)]
  | (k, v) :: rest => if k == key then (key, value) :: rest else (k, v) :: set rest key value

/-- Changes the table that a path of keys leads to, making the tables on the way that are missing.
The path of a dotted key may not pass through a table that has a header; the path of a header leads
through the newest of a list of tables. -/
def descend (made : TableOrigin) (change : TableOrigin → Members → Option Members) :
    TableOrigin → List String → Members → Option Members
  | origin, [], ms => change origin ms
  | _, key :: rest, ms =>
    match ms.get? key with
    | none => (descend made change made rest []).map fun inner => ms.set key (.table made inner)
    | some (.table origin inner) =>
      if made = .dotted ∧ origin = .header then none
      else (descend made change origin rest inner).map fun inner => ms.set key (.table origin inner)
    | some (.tables (newest :: older)) =>
      (descend made change .header rest newest).map fun newest => ms.set key (.tables (newest :: older))
    | some _ => none

/-- Adds a member to a table: a table made by dotted keys takes a dotted key, and any other takes a
plain one. No key is given twice. -/
def addMember (isDotted : Bool) (key : String) (value : Toml) (origin : TableOrigin) (ms : Members) :
    Option Members :=
  if (origin == .dotted) != isDotted then none
  else if (ms.get? key).isSome then none
  else some (ms ++ [(key, value)])

/-- Adds a member under a dotted key: the keys before the last, and the last. -/
def insertDotted (path : List String) (key : String) (value : Toml) (ms : Members) :
    Option Members :=
  descend .dotted (addMember (!path.isEmpty) key value) .header path ms

/-- Adds a member under a dotted key to the table with a header. -/
def insertUnder (header path : List String) (key : String) (value : Toml) (ms : Members) :
    Option Members :=
  descend .implied (fun _ => insertDotted path key value) .header header ms

/-- Gives a table its header. -/
def openTable (path : List String) (key : String) (ms : Members) : Option Members :=
  descend .implied (fun _ ms =>
    match ms.get? key with
    | none => some (ms.set key (.table .header []))
    | some (.table .implied inner) => some (ms.set key (.table .header inner))
    | some _ => none) .header path ms

/-- Opens a new table in a list of tables. -/
def openItem (path : List String) (key : String) (ms : Members) : Option Members :=
  descend .implied (fun _ ms =>
    match ms.get? key with
    | none => some (ms.set key (.tables [[]]))
    | some (.tables items) => some (ms.set key (.tables ([] :: items)))
    | some _ => none) .header path ms

end Members

end CodeGraph

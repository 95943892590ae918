import Std.Data.ExtTreeMap
import Std.Data.ExtTreeSet

/-!
# Indices

An index maps a key to a set of values and holds no empty set, so two indices with the same members
are equal.

* `Index`: the type.
* `Index.bucket`, `Index.insert`, `Index.erase`, `Index.dropKey`: its operations.
-/

namespace CodeGraph

/-- Sets of values by key. -/
abbrev Index (κ α : Type) [Ord κ] [Ord α] := Std.ExtTreeMap κ (Std.ExtTreeSet α)

namespace Index

variable {κ α : Type} [Ord κ] [Ord α] [Std.TransOrd κ] [Std.TransOrd α]

/-- The values of a key. -/
def bucket (index : Index κ α) (key : κ) : Std.ExtTreeSet α := index[key]?.getD ∅

/-- The values of a key, in order. -/
def values (index : Index κ α) (key : κ) : List α := (bucket index key).toList

/-- Adds a value to a key. -/
def insert (index : Index κ α) (key : κ) (value : α) : Index κ α :=
  Std.ExtTreeMap.insert index key ((bucket index key).insert value)

/-- Takes a value from a key, and the key away with its last value. -/
def erase (index : Index κ α) (key : κ) (value : α) : Index κ α :=
  let rest := (bucket index key).erase value
  if rest.isEmpty then Std.ExtTreeMap.erase index key else Std.ExtTreeMap.insert index key rest

/-- Takes a key away with all its values. -/
def dropKey (index : Index κ α) (key : κ) : Index κ α := Std.ExtTreeMap.erase index key

end Index

end CodeGraph

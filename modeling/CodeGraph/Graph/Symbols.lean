import CodeGraph.Declaration

/-!
# The symbol table

Keys under which an analyzer knows declarations, with the file that declared each key.

* `Symbols`: the table.
* `Symbols.insert`, `Symbols.merge`, `Symbols.removeFile`: changing it.
* `Symbols.lookup?`, `Symbols.inFile`: asking.
-/

namespace CodeGraph

/-- Declarations by symbol key, and the keys that each file declared. -/
structure Symbols where
  ids : Std.ExtTreeMap String NodeId := ∅
  keys : PathMap (List String) := ∅

namespace Symbols

/-- The empty table. -/
def empty : Symbols := {}

/-- The declaration of a key. -/
def lookup? (s : Symbols) (key : String) : Option NodeId := s.ids[key]?

/-- How many keys there are. -/
def size (s : Symbols) : Nat := s.ids.size

/-- The keys that a file declared, in the order in which they came. -/
def keysOf (s : Symbols) (file : Path) : List String := s.keys[file.parts]?.getD []

/-- Adds a key that a file declares. -/
def insert (s : Symbols) (key : String) (id : NodeId) (file : Path) : Symbols :=
  let known := s.keysOf file
  { ids := s.ids.insert key id
    keys := s.keys.insert file.parts (if known.contains key then known else known ++ [key]) }

/-- Adds the keys that a file declares. -/
def merge (s : Symbols) (mappings : List (String × NodeId)) (file : Path) : Symbols :=
  mappings.foldl (fun s m => s.insert m.1 m.2 file) s

/-- The declarations of the keys that a file declared. -/
def inFile (s : Symbols) (file : Path) : List NodeId := (s.keysOf file).filterMap s.lookup?

/-- Takes the keys that a file declared out. -/
def removeFile (s : Symbols) (file : Path) : Symbols :=
  { ids := (s.keysOf file).foldl (fun ids key => ids.erase key) s.ids
    keys := s.keys.erase file.parts }

/-- The whole table, by key. -/
def toList (s : Symbols) : List (String × NodeId) := s.ids.toList

end Symbols

end CodeGraph

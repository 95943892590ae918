import CodeGraph.Error
import CodeGraph.Kind
import CodeGraph.Text.Lowercase

/-!
# Matching names

* `MatchMode`: how a search text is compared with a name.
* `SearchQuery`, `SearchQuery.accepts`: a search, and whether a name satisfies it.
-/

namespace CodeGraph

/-- How a search text is compared with a name. -/
inductive MatchMode where
  | contains | startsWith | endsWith | exact
  deriving DecidableEq, Repr

namespace MatchMode

/-- The name of a mode. -/
def name : MatchMode → String
  | contains => "Contains"
  | startsWith => "StartsWith"
  | endsWith => "EndsWith"
  | exact => "Exact"

/-- The words that a mode is read from. -/
def words : List (String × MatchMode) :=
  [("contains", contains), ("startswith", startsWith), ("starts_with", startsWith),
   ("prefix", startsWith), ("endswith", endsWith), ("ends_with", endsWith), ("suffix", endsWith),
   ("exact", exact)]

/-- Reads a mode given as a parameter. -/
def read (value : String) : Except Error MatchMode :=
  readWord "match mode" "contains, startswith, endswith or exact" words value

end MatchMode

/-- Whether a list stands in another as a run of neighbours. -/
def occursIn (needle : List Char) : List Char → Bool
  | [] => needle.isEmpty
  | c :: rest => needle.isPrefixOf (c :: rest) || occursIn needle rest

/-- Whether a name and a search text agree under a mode, letter by letter. -/
def MatchMode.holds (mode : MatchMode) (candidate needle : List Char) : Bool :=
  match mode with
  | contains => occursIn needle candidate
  | startsWith => needle.isPrefixOf candidate
  | endsWith => needle.isSuffixOf candidate
  | exact => candidate == needle

/-- How many results a query gives when it does not say. -/
def defaultLimit : Nat := 100

/-- A search for declarations by name. -/
structure SearchQuery where
  text : String
  kind : Option NodeKind := none
  mode : MatchMode := .contains
  caseSensitive : Bool := false
  limit : Nat := defaultLimit
  deriving Repr

/-- Whether a name satisfies the search text. Unless case matters, both are lower-cased first. -/
def SearchQuery.accepts (q : SearchQuery) (candidate : String) : Bool :=
  if q.caseSensitive then q.mode.holds candidate.toList q.text.toList
  else q.mode.holds (Text.lowercase candidate).toList (Text.lowercase q.text).toList

end CodeGraph

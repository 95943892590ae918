import CodeGraph.Json.Basic

/-!
# Pages

A result that may be long is given as a page: its first items, together with the size of the whole.

* `Page`, `Page.ofList`: a page and how it is cut.
-/

namespace CodeGraph

/-- The first items of a list, and how many there were. -/
structure Page (α : Type) where
  items : List α
  total : Nat
  truncated : Bool
  deriving DecidableEq, Repr

namespace Page

/-- The page of at most `limit` items. -/
def ofList {α : Type} (all : List α) (limit : Nat) : Page α :=
  { items := all.take limit, total := all.length, truncated := limit < all.length }

/-- The written form of a page. -/
def toJson {α : Type} (f : α → Json) (p : Page α) : Json :=
  .obj [("items", Json.ofList f p.items), ("total_count", .num p.total),
    ("truncated", .bool p.truncated)]

end Page

end CodeGraph

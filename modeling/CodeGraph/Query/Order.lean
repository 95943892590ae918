import CodeGraph.Declaration

/-!
# Orders of results

* `sortBy`: stable sorting by a comparison.
* `sourceOrder`: declarations by their place in the source.
* `nameOrder`: declarations by qualified name.
* `siteOrder`: relationships by the place where they are expressed.
-/

namespace CodeGraph

/-- Sorts a list by a comparison; equal elements keep their order. -/
def sortBy {α : Type} (cmp : α → α → Ordering) (xs : List α) : List α :=
  xs.mergeSort fun a b => (cmp a b).isLE

/-- A line or column for sorting: an absent one comes after all others. -/
def placeOf (n : Option UInt32) : Nat := (n.getD 0xffffffff).toNat

/-- Declarations by line, column, name and identifier. -/
def sourceOrder (a b : Node) : Ordering :=
  (compare (placeOf a.startLine) (placeOf b.startLine)).then
    ((compare (placeOf a.startColumn) (placeOf b.startColumn)).then
      ((compare a.name b.name).then (compare a.id b.id)))

/-- Declarations by qualified name and identifier. -/
def nameOrder (a b : Node) : Ordering :=
  (compare a.qualifiedName b.qualifiedName).then (compare a.id b.id)

/-- Declarations by file and then by place in the source. -/
def fileOrder (a b : Node) : Ordering := (a.file.cmp b.file).then (sourceOrder a b)

/-- Optional paths; an absent one comes first. -/
def compareFiles : Option Path → Option Path → Ordering
  | none, none => .eq
  | none, some _ => .lt
  | some _, none => .gt
  | some p, some q => p.cmp q

/-- Relationships by file, line and identifier. -/
def siteOrder (a b : Edge) : Ordering :=
  (compareFiles a.file b.file).then
    ((compare (placeOf a.line) (placeOf b.line)).then (compare a.id b.id))

end CodeGraph

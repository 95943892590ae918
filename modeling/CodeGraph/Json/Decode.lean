import CodeGraph.Json.Parser

/-!
# Values from JSON

How the shapes of the data model are read from a tree. A record is an object, in which unknown
members are passed over and a known one may stand once, or a list of its fields in order. A choice
is its name, or an object with its name as the only member.

* `Parsed.text?`, `Parsed.natural?`, `Parsed.bool?`, `Parsed.list?`, `Parsed.option?`: single values.
* `Parsed.record?`: the fields of a record.
* `Parsed.choice?`: the name and content of a choice.
* `Parsed.flat?`, `Parsed.isBuffered`: records that keep the members of another record among their
  own.
-/

namespace CodeGraph

/-! ## Numbers -/

/-- The natural number that a number literal stands for, if it is written as one. -/
def JsonNumber.natural? (n : JsonNumber) : Option Nat :=
  if n.negative || !n.fraction.isEmpty || n.exponent.isSome then none else some n.whole

/-- The least magnitude that no double is near to: half a step above the largest one. -/
def doubleBound : Nat := Nat.pow 2 1024 - Nat.pow 2 970

/-- Whether a double can hold the magnitude of a number. Numbers beyond four hundred places are
settled by their length. -/
def JsonNumber.isFinite (n : JsonNumber) : Bool :=
  let mantissa := (n.fraction.foldl (fun m c => 10 * m + (c.toNat - '0'.toNat)) n.whole)
  let scale : Int := n.exponent.getD 0 - n.fraction.length
  let places : Int := (Nat.toDigits 10 mantissa).length + scale
  if mantissa = 0 ∨ places < 300 then true
  else if places > 400 then false
  else if scale ≥ 0 then decide (mantissa * Nat.pow 10 scale.toNat < doubleBound)
  else decide (mantissa < doubleBound * Nat.pow 10 (-scale).toNat)

namespace Parsed

/-! ## Single values -/

/-- A string that denotes a text. -/
def text? : Parsed → Option String
  | string s => s
  | _ => none

/-- A natural number of at most the given size. -/
def natural? (largest : Nat) : Parsed → Option Nat
  | number n => n.natural?.filter (· ≤ largest)
  | _ => none

/-- A number of 32 bits. -/
def word32? (p : Parsed) : Option UInt32 := (p.natural? 0xffffffff).map UInt32.ofNat

/-- A number of 64 bits. -/
def word64? (p : Parsed) : Option UInt64 := (p.natural? 0xffffffffffffffff).map UInt64.ofNat

/-- A truth value. -/
def bool? : Parsed → Option Bool
  | bool b => some b
  | _ => none

/-- A list of values. -/
def list? {α : Type} (f : Parsed → Option α) : Parsed → Option (List α)
  | array items => items.mapM f
  | _ => none

/-- A value, or `null` for none. -/
def option? {α : Type} (f : Parsed → Option α) : Parsed → Option (Option α)
  | null => some none
  | p => (f p).map some

/-! ## Records and choices -/

/-- The value of the only member with a name; `none` if the name stands twice. -/
def member? (members : List (Option String × Parsed)) (name : String) : Option (Option Parsed) :=
  match members.filter fun m => m.1 == some name with
  | [] => some none
  | [m] => some (some m.2)
  | _ => none

/-- The fields of a record with the given names, in their order; a field that is not given is
`none`. -/
def record? (names : List String) : Parsed → Option (List (Option Parsed))
  | object members =>
    if members.all fun m => m.1.isSome then names.mapM (member? members) else none
  | array items =>
    if items.length ≤ names.length then
      some (items.map some ++ List.replicate (names.length - items.length) none)
    else none
  | _ => none

/-- A field that must be given. -/
def required? {α : Type} (f : Parsed → Option α) (field : Option Parsed) : Option α :=
  field.bind f

/-- A field that has a value of its own when it is not given. -/
def orElse? {α : Type} (f : Parsed → Option α) (fallback : α) : Option Parsed → Option α
  | none => some fallback
  | some p => f p

/-- The name of a choice and its content, if any is given. -/
def choice? : Parsed → Option (String × Option Parsed)
  | string s => s.map fun s => (s, none)
  | object [(key, value)] => key.map fun key => (key, some value)
  | _ => none

/-- A choice without content. -/
def plain? {α : Type} (ofName? : String → Option α) (p : Parsed) : Option α :=
  match p.choice? with
  | some (name, none) => ofName? name
  | some (name, some null) => ofName? name
  | _ => none

/-! ## Flattened records -/

mutual

/-- Whether a value can be set aside whole: its strings are texts, its numbers are finite and its
lists and objects nest less deep than `depth`. -/
def isBuffered (depth : Nat) : Parsed → Bool
  | number n => n.isFinite
  | string s => s.isSome
  | array items =>
    match depth with
    | 0 => false
    | depth + 1 => areBuffered depth items
  | object members =>
    match depth with
    | 0 => false
    | depth + 1 => membersBuffered depth members
  | _ => true

/-- Whether every item can be set aside. -/
def areBuffered (depth : Nat) : List Parsed → Bool
  | [] => true
  | p :: rest => isBuffered depth p && areBuffered depth rest

/-- Whether every member can be set aside. -/
def membersBuffered (depth : Nat) : List (Option String × Parsed) → Bool
  | [] => true
  | (key, p) :: rest => key.isSome && isBuffered depth p && membersBuffered depth rest

end

/-- How deep the members of a flattened record may nest. -/
def bufferDepth : Nat := 126

/-- The fields of a record that keeps the members of another among its own: first those with the
names `own`, then those with the names `inner`. Members of the record that are not its own are set
aside whole. -/
def flat? (own inner : List String) : Parsed → Option (List (Option Parsed) × List (Option Parsed))
  | object members =>
    let others := members.filter fun m => !(own.any fun n => m.1 == some n)
    if (members.all fun m => m.1.isSome) && membersBuffered bufferDepth others then do
      let first ← own.mapM (member? members)
      let second ← inner.mapM (member? members)
      some (first, second)
    else none
  | _ => none

end Parsed

end CodeGraph

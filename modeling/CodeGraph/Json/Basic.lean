/-!
# JSON values and their text

* `Json`: the values that the program writes; their numbers are natural numbers.
* `Json.compact`: the text without blanks.
* `Json.pretty`: the text with one member or item per line, indented by two blanks a level.
-/

namespace CodeGraph

/-- A JSON value as the program writes it; the members of an object keep their order. -/
inductive Json where
  | null
  | bool (value : Bool)
  | num (value : Nat)
  | str (value : String)
  | arr (items : List Json)
  | obj (members : List (String × Json))
  deriving Inhabited

namespace Json

/-! ## Strings and numbers -/

/-- A lower-case hexadecimal digit. -/
def hexDigit (n : Nat) : Char := (Nat.toDigits 16 (n % 16)).headD '0'

/-- A character inside a string literal: quotes, backslashes and control characters are escaped. -/
def escapeChar (c : Char) : List Char :=
  if c = '"' then ['\\', '"']
  else if c = '\\' then ['\\', '\\']
  else if c = '\n' then ['\\', 'n']
  else if c = '\r' then ['\\', 'r']
  else if c = '\t' then ['\\', 't']
  else if c.toNat = 8 then ['\\', 'b']
  else if c.toNat = 12 then ['\\', 'f']
  else if c.toNat < 32 then ['\\', 'u', '0', '0', hexDigit (c.toNat / 16), hexDigit c.toNat]
  else [c]

/-- A string literal. -/
def quote (s : String) : List Char := '"' :: s.toList.flatMap escapeChar ++ ['"']

/-- A natural number in decimal digits. -/
def digits (n : Nat) : List Char := Nat.toDigits 10 n

/-- The text of a truth value. -/
def word (b : Bool) : List Char := if b then "true".toList else "false".toList

/-! ## Compact text -/

mutual

/-- The text of a value without blanks. -/
def compactChars : Json → List Char
  | null => "null".toList
  | bool b => word b
  | num n => digits n
  | str s => quote s
  | arr items => '[' :: compactItems items ++ [']']
  | obj members => '{' :: compactMembers members ++ ['}']

/-- The items of a list, divided by commas. -/
def compactItems : List Json → List Char
  | [] => []
  | [item] => compactChars item
  | item :: rest => compactChars item ++ ',' :: compactItems rest

/-- The members of an object, divided by commas. -/
def compactMembers : List (String × Json) → List Char
  | [] => []
  | [(key, value)] => quote key ++ ':' :: compactChars value
  | (key, value) :: rest => quote key ++ ':' :: compactChars value ++ ',' :: compactMembers rest

end

/-- The text of a value without blanks. -/
def compact (value : Json) : String := String.ofList value.compactChars

/-! ## Indented text -/

/-- A line break followed by the indentation of a level. -/
def newline (level : Nat) : List Char := '\n' :: List.replicate (2 * level) ' '

mutual

/-- The text of a value at a level of indentation. -/
def prettyChars (level : Nat) : Json → List Char
  | null => "null".toList
  | bool b => word b
  | num n => digits n
  | str s => quote s
  | arr [] => ['[', ']']
  | arr (item :: rest) =>
    '[' :: newline (level + 1) ++ prettyItems (level + 1) (item :: rest) ++ newline level ++ [']']
  | obj [] => ['{', '}']
  | obj (member :: rest) =>
    '{' :: newline (level + 1) ++ prettyMembers (level + 1) (member :: rest) ++
      newline level ++ ['}']

/-- The items of a list, one a line. -/
def prettyItems (level : Nat) : List Json → List Char
  | [] => []
  | [item] => prettyChars level item
  | item :: rest => prettyChars level item ++ ',' :: newline level ++ prettyItems level rest

/-- The members of an object, one a line. -/
def prettyMembers (level : Nat) : List (String × Json) → List Char
  | [] => []
  | [(key, value)] => quote key ++ ':' :: ' ' :: prettyChars level value
  | (key, value) :: rest =>
    quote key ++ ':' :: ' ' :: prettyChars level value ++ ',' :: newline level ++
      prettyMembers level rest

end

/-- The text of a value with one member or item per line. -/
def pretty (value : Json) : String := String.ofList (value.prettyChars 0)

/-! ## Building values -/

/-- The value of an optional one, or `null`. -/
def ofOption {α : Type} (f : α → Json) : Option α → Json
  | none => null
  | some a => f a

/-- A list of values. -/
def ofList {α : Type} (f : α → Json) (items : List α) : Json := arr (items.map f)

/-- An optional member, left out when it is absent. -/
def member? {α : Type} (key : String) (f : α → Json) : Option α → List (String × Json)
  | none => []
  | some a => [(key, f a)]

end Json

end CodeGraph

/-!
# The words of a command line

A command line has levels: a level can take named arguments and values by place, and then a command
that opens the next level. Each argument can be given once in a level.

* `Named`, `Level`: what can be given.
* `Given`: what is given.
* `Level.scan`: reads the words of a level.
-/

namespace CodeGraph

/-- An argument that is given by name. -/
structure Named where
  long : String
  short : Option Char := none
  /-- The values that it takes; a switch takes none. -/
  accepts : Option (String → Bool) := none

/-- The switch that asks for help, which every level has. -/
def Named.help : Named := { long := "help", short := some 'h' }

/-- What can be given at a level. -/
structure Level where
  named : List Named
  /-- The values that the places take, in order. -/
  places : List (String → Bool) := []
  /-- The commands that open the next level. -/
  commands : List String := []

/-- What is given at a level. A switch that is given has an empty value. -/
structure Given where
  named : List (String × String) := []
  places : List String := []
  deriving DecidableEq, Repr

/-- What a word says, if it gives named arguments. -/
inductive WordReading where
  | misuse
  | help
  /-- The last argument may still wait for its value. -/
  | given (given : Given) (awaits : Option Named)

/-- What the words of a level say. -/
inductive Reading where
  | misuse
  | help
  | finished (given : Given)
  | command (given : Given) (name : String) (rest : List String)

namespace Given

/-- The value of a named argument. -/
def value? (g : Given) (long : String) : Option String := g.named.lookup long

/-- Whether a switch is given. -/
def has (g : Given) (long : String) : Bool := (g.value? long).isSome

/-- Takes a switch, unless it is given already. -/
def switch? (g : Given) (n : Named) : Option Given :=
  if g.has n.long then none else some { g with named := g.named ++ [(n.long, "")] }

/-- Takes the value of a named argument, unless that is given already or does not take it. -/
def take? (g : Given) (n : Named) (value : String) : Option Given :=
  if g.has n.long || !n.accepts.any (· value) then none
  else some { g with named := g.named ++ [(n.long, value)] }

/-- Takes the value of the next place. -/
def place? (g : Given) (l : Level) (value : String) : Option Given :=
  match l.places[g.places.length]? with
  | some accepts => if accepts value then some { g with places := g.places ++ [value] } else none
  | none => none

end Given

namespace Level

/-- The argument with a long name. -/
def long? (l : Level) (name : String) : Option Named :=
  (Named.help :: l.named).find? (·.long == name)

/-- The argument with a short name. -/
def short? (l : Level) (c : Char) : Option Named :=
  (Named.help :: l.named).find? (·.short == some c)

/-- A value of an argument, in the word that names it. -/
def attach (g : Given) (n : Named) (value : List Char) : WordReading :=
  match g.take? n (String.ofList value) with
  | some g => .given g none
  | none => .misuse

/-- Reads a long name, with a value after `=` or without one. -/
def readLong (l : Level) (g : Given) (body : List Char) : WordReading :=
  match l.long? (String.ofList (body.takeWhile (· != '='))) with
  | none => .misuse
  | some n =>
    match n.accepts, body.dropWhile (· != '=') with
    | some _, _ :: value => attach g n value
    | some _, [] => .given g (some n)
    | none, _ :: _ => .misuse
    | none, [] =>
      if n.long == Named.help.long then .help
      else
        match g.switch? n with
        | some g => .given g none
        | none => .misuse

/-- Reads a group of short names. What follows the name of an argument with a value is the value,
with `=` before it or without. -/
def readShort (l : Level) (g : Given) : List Char → WordReading
  | [] => .given g none
  | c :: rest =>
    match l.short? c with
    | none => .misuse
    | some n =>
      match n.accepts, rest with
      | some _, [] => .given g (some n)
      | some _, '=' :: value => attach g n value
      | some _, value => attach g n value
      | none, rest =>
        if n.long == Named.help.long then .help
        else
          match g.switch? n with
          | some g => readShort l g rest
          | none => .misuse

/-- Whether a word can be the value of the argument before it. -/
def isValue (word : String) : Bool := word == "-" || word.toList.head? != some '-'

/-- Takes all words as values by place. -/
def placeAll (l : Level) (g : Given) (words : List String) : Reading :=
  match words.foldlM (fun g w => g.place? l w) g with
  | some g => .finished g
  | none => .misuse

/-- Reads the words of a level. After `--` all words are values by place. -/
def scan (l : Level) (g : Given) : List String → Reading
  | [] => .finished g
  | word :: rest =>
    if l.commands.contains word then .command g word rest
    else if word = "--" then l.placeAll g rest
    else
      let named := match word.toList with
        | '-' :: '-' :: body => some (l.readLong g body)
        | '-' :: c :: body => some (l.readShort g (c :: body))
        | _ => none
      match named, rest with
      | some .misuse, _ => .misuse
      | some .help, _ => .help
      | some (.given g none), rest => scan l g rest
      | some (.given g (some n)), value :: rest =>
        if isValue value then
          match g.take? n value with
          | some g => scan l g rest
          | none => .misuse
        else .misuse
      | some (.given _ (some _)), [] => .misuse
      | none, rest =>
        match g.place? l word with
        | some g => scan l g rest
        | none => .misuse

end Level

end CodeGraph

import CodeGraph.Command.Question
import CodeGraph.Command.Words

/-!
# Command lines

* `Command`, `CommandLine`: what a command line asks for.
* `Form`, `forms`: the questions, with the arguments that each takes.
* `CommandLine.ofWords`: reads a command line.
-/

namespace CodeGraph

/-- What a command line asks for. -/
inductive Command where
  | ask (question : Question)
  /-- Takes the cache of the project away. -/
  | clear
  | version
  | help
  deriving Repr

/-- A command and what holds for all commands. -/
structure CommandLine where
  command : Command
  /-- Where the search for the project starts. -/
  root : Path := ⟨"."⟩
  verbose : Bool := false
  deriving Repr

/-! ## Values -/

/-- Reads a count, which may have a plus sign. -/
def readCount? (text : String) : Option Nat := (Config.readWord64? text).map (·.toNat)

/-- Reads a depth of 32 bits, which may have a sign as long as it is not below zero. -/
def readDepth? (text : String) : Option Nat :=
  let (negative, digits) := match text.toList with
    | '-' :: rest => (true, rest)
    | '+' :: rest => (false, rest)
    | cs => (false, cs)
  if !digits.isEmpty && digits.all Json.isDigit then
    let n := Json.digitsValue digits
    if n < UInt32.size && (!negative || n = 0) then some n else none
  else none

/-- Reads a path, which is not empty. -/
def readPath? (text : String) : Option Path := if text.isEmpty then none else some ⟨text⟩

/-- Reads a word of a vocabulary. -/
def word? {α : Type} (read : String → Except Error α) (text : String) : Option α :=
  (read text).toOption

/-- Whether a reader takes a text. -/
def takes {α : Type} (read : String → Option α) (text : String) : Bool := (read text).isSome

/-- An argument with a value, which also has its first letter as a name. -/
def lettered {α : Type} (long : String) (read : String → Option α) : Named :=
  { long, short := long.toList.head?, accepts := some (takes read) }

/-- The argument that bounds the number of results. -/
def limitArgument : Named := lettered "limit" readCount?

/-- The argument that bounds the length of paths. -/
def depthArgument : Named := lettered "depth" readDepth?

/-- The argument that selects declarations by kind. -/
def kindArgument : Named := lettered "kind" (word? NodeKind.read)

/-- The switch that follows dependencies further. -/
def transitiveArgument : Named := { long := "transitive", short := some 't' }

/-- The value of a named argument, as read. -/
def Given.read? {α : Type} (g : Given) (long : String) (read : String → Option α) : Option α :=
  (g.value? long).bind read

/-- The limit that is given. -/
def Given.limit? (g : Given) : Option Nat := g.read? "limit" readCount?

/-- The depth that is given, or another. -/
def Given.depth (g : Given) (fallback : Nat) : Nat := (g.read? "depth" readDepth?).getD fallback

/-- The kind of declarations that is given. -/
def Given.kind? (g : Given) : Option NodeKind := g.read? "kind" (word? NodeKind.read)

/-! ## Questions -/

/-- How a question is asked: its name, its arguments, and what it asks with them. A question with a
place needs the value of that place. -/
structure Form where
  name : String
  named : List Named := []
  place : Option (String → Bool) := some fun _ => true
  question : Given → String → Option Question

/-- The questions. -/
def forms : List Form :=
  [ { name := "search"
      named := [kindArgument, lettered "mode" (word? MatchMode.read),
        { long := "case-sensitive" }, limitArgument]
      question := fun g text => some (.search text g.kind?
        ((g.read? "mode" (word? MatchMode.read)).getD .contains)
        (g.has "case-sensitive") g.limit?) },
    { name := "node", question := fun _ id => some (.node id) },
    { name := "children", named := [kindArgument, limitArgument]
      question := fun g id => some (.children id g.kind? g.limit?) },
    { name := "ancestors", question := fun _ id => some (.ancestors id) },
    { name := "relationships"
      named := [lettered "kind" (word? EdgeKind.read),
        lettered "direction" (word? EdgeDirection.read), limitArgument]
      question := fun g id => some (.relationships id
        (g.read? "kind" (word? EdgeKind.read))
        ((g.read? "direction" (word? EdgeDirection.read)).getD .both) g.limit?) },
    { name := "callers", named := [depthArgument, limitArgument]
      question := fun g id => some (.calls .sources id (g.depth 3) g.limit?) },
    { name := "callees", named := [depthArgument, limitArgument]
      question := fun g id => some (.calls .targets id (g.depth 3) g.limit?) },
    { name := "inheritance"
      named := [lettered "direction" (word? HierarchyDirection.read),
        { depthArgument with short := none }]
      question := fun g id => some (.inheritance id
        ((g.read? "direction" (word? HierarchyDirection.read)).getD .ancestors)
        (g.depth 10)) },
    { name := "list", named := [lettered "scope" some, limitArgument]
      place := some (takes (word? NodeKind.read))
      question := fun g kind =>
        (word? NodeKind.read kind).map fun k => .list k (g.value? "scope") g.limit? },
    { name := "dependencies", named := [transitiveArgument, limitArgument]
      question := fun g id => some (.dependencies .targets id (g.has "transitive") g.limit?) },
    { name := "dependents", named := [transitiveArgument, limitArgument]
      question := fun g id => some (.dependencies .sources id (g.has "transitive") g.limit?) },
    { name := "file", place := some (takes readPath?)
      question := fun _ path => (readPath? path).map .file },
    { name := "tree"
      named := [{ lettered "from" some with short := none }, depthArgument, kindArgument]
      place := none
      question := fun g _ => some (.tree (g.value? "from") (g.depth 3) g.kind?) },
    { name := "stats", place := none, question := fun _ _ => some .stats } ]

/-- What a question asks, with the value of its place if it has one. -/
def Form.ask? (f : Form) (g : Given) : Option Question :=
  match f.place, g.places with
  | none, _ => f.question g ""
  | some _, value :: _ => f.question g value
  | some _, [] => none

/-! ## Levels -/

/-- The arguments of every level. -/
def commonArguments : List Named :=
  [{ long := "verbose", short := some 'v' }, lettered "root" readPath?]

/-- The first level. -/
def topLevel : Level :=
  { named := commonArguments, commands := ["query", "clear", "version", "help"] }

/-- The level of a command without arguments of its own. -/
def plainLevel : Level := { named := commonArguments }

/-- The level at which a question is named. -/
def queryLevel : Level :=
  { named := commonArguments, commands := forms.map (·.name) ++ ["help"] }

/-- The level of a question. -/
def Form.level (f : Form) : Level :=
  { named := f.named ++ commonArguments, places := f.place.toList }

/-- What a command line says. -/
inductive LineReading where
  | misuse
  | asks (line : CommandLine)

namespace CommandLine

/-- Adds what a level says about all commands; a later level goes before an earlier one. -/
def addCommon (line : CommandLine) (g : Given) : CommandLine :=
  { line with
    root := (g.read? "root" readPath?).getD line.root
    verbose := line.verbose || g.has "verbose" }

/-- A request for help about a command that is named by its words. -/
def helpOn (line : CommandLine) (isCommand : Bool) : LineReading :=
  if isCommand then .asks { line with command := .help } else .misuse

/-- Whether words lead to a command. -/
def leadsToCommand : List String → Bool
  | [] => true
  | ["query"] => true
  | ["query", name] => queryLevel.commands.contains name
  | [name] => topLevel.commands.contains name
  | _ => false

/-- Reads the last level of a command line. -/
def ofLast (line : CommandLine) (l : Level) (command? : Given → Option Command)
    (words : List String) : LineReading :=
  match l.scan {} words with
  | .finished g =>
    match command? g with
    | some command => .asks { line.addCommon g with command }
    | none => .misuse
  | .help => .asks { line with command := .help }
  | _ => .misuse

/-- Reads the level at which a question is named. -/
def ofQuery (line : CommandLine) (words : List String) : LineReading :=
  match queryLevel.scan {} words with
  | .help => .asks { line with command := .help }
  | .command g name rest =>
    let line := line.addCommon g
    match forms.find? (·.name == name) with
    | some f => line.ofLast f.level (fun g => (f.ask? g).map .ask) rest
    | none => helpOn line (leadsToCommand ("query" :: rest))
  | _ => .misuse

/-- Reads a command line. -/
def ofWords (words : List String) : LineReading :=
  let line : CommandLine := { command := .help }
  match topLevel.scan {} words with
  | .help => .asks line
  | .command g name rest =>
    let line := line.addCommon g
    match name with
    | "query" => line.ofQuery rest
    | "clear" => line.ofLast plainLevel (fun _ => some .clear) rest
    | "version" => line.ofLast plainLevel (fun _ => some .version) rest
    | _ => helpOn line (leadsToCommand rest)
  | _ => .misuse

end CommandLine

end CodeGraph

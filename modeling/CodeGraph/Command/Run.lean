import CodeGraph.Command.Line
import CodeGraph.Repository

/-!
# Running commands

* `Outcome`: what a command leads to.
* `CommandLine.run`: carries a command out on a disk.
* `runWords`: reads a command line and carries it out.
-/

namespace CodeGraph

/-- What a command leads to. -/
inductive Outcome where
  | printed (text : String)
  /-- The command line was not understood. -/
  | misused
  | failed (error : Error)
  deriving Repr

namespace Outcome

/-- The exit code. -/
def exitCode : Outcome → Nat
  | printed _ => 0
  | failed _ => 1
  | misused => 2

/-- The text that is printed. -/
def output : Outcome → String
  | printed text => text
  | _ => ""

/-- The line that reports a failure. -/
def errorLine? : Outcome → Option String
  | failed e => some s!"Error: {e.message}"
  | _ => none

end Outcome

/-- The line that tells the version. -/
def versionLine : String := s!"Arbor v{SnapshotFile.currentVersion}\n"

/-- A reminder of the commands. -/
def usage : String :=
  "Usage: arbor [--root PATH] [--verbose] COMMAND\n\nCommands: query QUESTION, clear, version\n" ++
    "Questions: " ++ ", ".intercalate (forms.map (·.name)) ++ "\n"

/-- The graph that a project has stored. -/
def storedGraph (disk : Disk) (root : ProjectRoot) (config : Config) :
    Disk × Except Error Store :=
  let file := snapshotPath root.path config.cacheDir
  if disk.exists? file then
    match (Repository.onDisk root.path config.cacheDir).setUp disk with
    | (disk, r, .ok ()) => (disk, .ok (Store.ofSnapshot r.graph))
    | (disk, _, .error e) => (disk, .error e)
  else (disk, .error (.noSnapshot file))

/-- Answers a question about the graph of a project. -/
def Question.run (disk : Disk) (root : ProjectRoot) (config : Config) (q : Question) :
    Disk × Outcome :=
  match storedGraph disk root config with
  | (disk, .ok s) => (disk, .printed ((q.answer root config s).pretty ++ "\n"))
  | (disk, .error e) => (disk, .failed e)

/-- The project that a command is about, and its configuration. -/
def CommandLine.project (disk : Disk) (env : Environment) (line : CommandLine) :
    Except Error (ProjectRoot × Config) := do
  let root ← ProjectRoot.discover disk line.root
  .ok (root, ← Config.load disk root.path env)

/-- Carries a command out. -/
def CommandLine.run (disk : Disk) (env : Environment) (line : CommandLine) : Disk × Outcome :=
  match line.command with
  | .version => (disk, .printed versionLine)
  | .help => (disk, .printed usage)
  | .ask q =>
    match line.project disk env with
    | .ok (root, config) => q.run disk root config
    | .error e => (disk, .failed e)
  | .clear =>
    match line.project disk env with
    | .error e => (disk, .failed e)
    | .ok (root, config) =>
      match clearCache disk root.path config.cacheDir with
      | (disk, .ok ()) => (disk, .printed "")
      | (disk, .error e) => (disk, .failed e)

/-- Reads a command line and carries it out. -/
def runWords (disk : Disk) (env : Environment) (words : List String) : Disk × Outcome :=
  match CommandLine.ofWords words with
  | .misuse => (disk, .misused)
  | .asks line => line.run disk env

end CodeGraph

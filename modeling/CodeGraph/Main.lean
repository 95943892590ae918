import CodeGraph.Command.Run

/-!
# The program

The only module with effects. It looks at the part of the disk that a command is about, carries the
command out on that, prints the outcome, and takes the cache away if the command did.
-/

namespace CodeGraph

/-- The location of an absolute path. -/
def locationOf (path : String) : Location := (path.splitOn "/").filter (· ≠ "")

/-- A location and those above it, without the root, the outermost first. -/
def placesTo (l : Location) : List Location :=
  (List.range l.length).map fun k => l.take (k + 1)

/-- Notes that there are directories. -/
def addDirectories (disk : Disk) (ls : List Location) : Disk :=
  { disk with entries := ls.foldl (fun m l => m.insert l .directory) disk.entries }

/-- Notes that there is a file. -/
def addText (disk : Disk) (l : Location) (content : String) : Disk :=
  { disk with entries := disk.entries.insert l (.file content) }

/-- The contents of a file, or nothing if it cannot be read. -/
def readText? (path : String) : IO (Option String) := do
  try return some (← IO.FS.readFile path)
  catch _ => return none

/-- Looks at what a directory holds. Only the files that configure a project are read. -/
def surveyDirectory (disk : Disk) (l : Location) : IO Disk := do
  let dir := "/" ++ "/".intercalate l
  let mut found := disk
  for e in ← (← IO.FS.realPath dir).readDir do
    let place := l ++ [e.fileName]
    if ← e.path.isDir then found := addDirectories found [place]
    else if [Config.fileName.text, Config.environmentFile.text].contains e.fileName then
      found := addText found place ((← readText? (dir ++ "/" ++ e.fileName)).getD "")
    else found := addText found place ""
  return found

/-- Looks at the cache of a project, of which only the stored graph is read. -/
def surveyCache (disk : Disk) (root : ProjectRoot) (config : Config) : IO Disk := do
  let cache := (cachePath root.path config.cacheDir).normalize
  let file := (snapshotPath root.path config.cacheDir).normalize
  try
    let isDirectory ← (← IO.FS.realPath cache.text).isDir
    let place := locationOf cache.text
    if isDirectory then
      let disk ← surveyDirectory (addDirectories disk (placesTo place)) place
      match ← readText? file.text with
      | some content => return addText disk (locationOf file.text) content
      | none => return disk
    else return addText disk place ""
  catch _ => return disk

/-- The values of the names that can matter: those that configure, and those that a file of
assignments mentions. -/
def surveyEnvironment (mentioned : List String) : IO Environment := do
  let mut env : Environment := ∅
  for name in Config.overrides.map (·.name) ++ mentioned do
    if let some value ← IO.getEnv name then env := env.insert name value
  return env

/-- The names that a text mentions. -/
def namesIn (text : String) : List String :=
  ((text.toList.splitBy fun a b => EnvironmentFile.isNamePart a == EnvironmentFile.isNamePart b).map
    String.ofList).filter fun w => w.toList.all EnvironmentFile.isNamePart

/-- Looks at a directory and those above it; what cannot be listed is taken as empty. -/
def surveyAbove (start : Location) : IO Disk := do
  let mut disk := addDirectories {} (placesTo start)
  for l in [] :: placesTo start do
    try disk ← surveyDirectory disk l catch _ => pure ()
  return disk

/-- Carries a command out on the real disk, from a canonical path on. -/
def CommandLine.performFrom (line : CommandLine) (start : String) : IO Outcome := do
  let line := { line with root := ⟨start⟩ }
  let above ← surveyAbove (locationOf start)
  let env ← surveyEnvironment (above.entries.toList.flatMap fun
    | (_, .file content) => namesIn content
    | _ => [])
  match line.project above env with
  | .error _ => return (line.run above env).2
  | .ok (root, config) =>
    let disk ← surveyCache above root config
    let (after, outcome) := line.run disk env
    let cache := cachePath root.path config.cacheDir
    if disk.exists? cache && !after.exists? cache then IO.FS.removeDirAll cache.text
    return outcome

/-- Carries a command out on the real disk. -/
def CommandLine.perform (line : CommandLine) : IO Outcome := do
  let start ← try pure (some (← IO.FS.realPath line.root.text).toString) catch _ => pure none
  match start with
  | some start => line.performFrom start
  | none => return (line.run {} ∅).2

end CodeGraph

open CodeGraph in
/-- Runs the command that the words name. -/
def main (words : List String) : IO UInt32 := do
  let outcome ← match CommandLine.ofWords words with
    | .misuse => pure .misused
    | .asks line => line.perform
  IO.print outcome.output
  if let some message := outcome.errorLine? then IO.eprintln message
  if outcome matches .misused then IO.eprint usage
  return UInt32.ofNat outcome.exitCode

import CodeGraph.Config
import CodeGraph.Ignore.Rules
import CodeGraph.ProjectRoot
import CodeGraph.Watch.Debouncer

/-!
# Relevant paths and file events

Which files of a project are worth analyzing, and what a notice about files becomes.

* `PathFilter`, `PathFilter.isRelevant`: the files that count.
* `PathFilter.ofConfig`: the filter of a project.
* `FileEvent`, `FileEvent.changes`, `FileEvent.route`: notices about files.
-/

namespace CodeGraph

/-- What makes a path of a project relevant. -/
structure PathFilter where
  root : ProjectRoot
  extensions : List String
  /-- The directory, as seen from the root, that holds the program's own files. -/
  cacheDir : Path
  /-- The paths, as seen from the root, that are left out. -/
  ignores : Path → Bool

namespace PathFilter

/-- Whether a path has one of the extensions, in any ASCII case. -/
def hasExtension (f : PathFilter) (p : Path) : Bool :=
  p.extension?.any fun e => f.extensions.any fun x => Text.sameWord x e

/-- Whether a path leads to a file of the project that is worth analyzing. -/
def isRelevant (f : PathFilter) (p : Path) : Bool :=
  let r := f.root.relative p
  !r.isAbsolute && !r.startsWith ⟨".."⟩ && f.hasExtension r && !r.startsWith f.cacheDir &&
    !f.ignores r

/-- The patterns of a list of globs, or the error that names the first ill-formed one. -/
def patterns (globs : List String) : Except Error (List Pattern) :=
  globs.mapM fun g =>
    match Glob.compile? {} g with
    | some p => .ok p
    | none => .error (.during s!"invalid ignore pattern '{g}'" (.text "ill-formed glob"))

/-- The name of the ignore file at a project's root. -/
def ignoreFileName : Path := ⟨".gitignore"⟩

/-- The rules of the ignore file at a project's root. -/
def rootRules (disk : Disk) (root : ProjectRoot) : IgnoreFile :=
  match disk.read (root.path.join ignoreFileName) with
  | .ok text => .ofText text
  | .error _ => []

/-- The filter of a project. -/
def ofConfig (disk : Disk) (root : ProjectRoot) (c : Config) : Except Error PathFilter := do
  let globs ← patterns c.ignore
  let rules := if c.respectGitignore then rootRules disk root else []
  .ok { root, extensions := c.extensions, cacheDir := ⟨c.cacheDir⟩
        ignores := fun p => globs.any (·.accepts p.text) || rules.ignores p }

end PathFilter

/-! ## Events -/

/-- What a notice says happened to files. -/
inductive EventKind where
  | create
  | modify
  /-- A file moved; the two paths are its old and its new place. -/
  | renameBoth
  | renameFrom
  | renameTo
  | remove
  | other
  deriving DecidableEq, Repr

/-- A notice about files. -/
structure FileEvent where
  kind : EventKind
  paths : List Path
  deriving DecidableEq, Repr

namespace FileEvent

/-- What a notice about one path makes of it. -/
def changeOf? : EventKind → Path → Option Change
  | .create, p | .renameTo, p => some (.created p)
  | .modify, p | .renameBoth, p => some (.modified p)
  | .remove, p | .renameFrom, p => some (.deleted p)
  | .other, _ => none

/-- The changes that a notice stands for. Paths that are not relevant do not count. -/
def changes (f : PathFilter) (e : FileEvent) : List Change :=
  match e.kind, e.paths with
  | .renameBoth, [source, target] =>
    Debouncer.renameChanges (f.root.relative source) (f.root.relative target) f.isRelevant
  | kind, paths => (paths.filter f.isRelevant).filterMap fun p => changeOf? kind (f.root.relative p)

/-- Passes a notice on to a debouncer. -/
def route (f : PathFilter) (d : Debouncer) (now : Nat) (e : FileEvent) : Debouncer :=
  (e.changes f).foldl (fun d c => d.push now c) d

end FileEvent

end CodeGraph

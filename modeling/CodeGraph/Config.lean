import CodeGraph.Disk
import CodeGraph.Environment
import CodeGraph.Error
import CodeGraph.Json.Declaration
import CodeGraph.Toml.Parser

/-!
# Configuration

A project is configured by a TOML file at its root. Fields that it does not give have values of
their own, and three of them can be overridden from the environment.

* `Config`: the fields and their values.
* `Config.toJson`, `Config.ofJson?`: the JSON form.
* `Config.ofToml?`: the configuration that a table describes.
* `Config.applyEnvironment`: the overrides.
* `Config.load`: the configuration of a project.
-/

namespace CodeGraph

/-- The configuration of a project. -/
structure Config where
  /-- How long no file may change before a burst of changes is handled, in milliseconds. -/
  debounceMs : UInt64 := 300
  /-- Whether files that refer to a changed file are analyzed again. -/
  cascade : Bool := true
  /-- Whether parameters and local variables are declarations of interest. -/
  includeLocals : Bool := false
  /-- The extensions, without the dot, of files worth analyzing. -/
  extensions : List String :=
    ["cs", "rs", "ts", "tsx", "js", "jsx", "py", "go", "java", "c", "h", "cpp"]
  /-- Patterns for paths below the root that are never watched. -/
  ignore : List String :=
    ["**/bin/**", "**/obj/**", "**/target/**", "**/node_modules/**", "**/.git/**"]
  /-- Whether the ignore file at the root counts too. -/
  respectGitignore : Bool := true
  /-- The directory below the root that holds the stored graph. -/
  cacheDir : String := ".arbor"
  /-- How many results a query gives when it does not say. -/
  defaultLimit : UInt64 := 100
  deriving DecidableEq, Repr

namespace Config

/-! ## The JSON form -/

/-- The written form of a configuration. -/
def toJson (c : Config) : Json :=
  .obj [("debounce_ms", .word64 c.debounceMs), ("cascade", .bool c.cascade),
    ("include_locals", .bool c.includeLocals), ("extensions", Json.ofList Json.str c.extensions),
    ("ignore", Json.ofList Json.str c.ignore), ("respect_gitignore", .bool c.respectGitignore),
    ("cache_dir", .str c.cacheDir), ("default_limit", .word64 c.defaultLimit)]

/-- The names of the fields. -/
def fieldNames : List String :=
  ["debounce_ms", "cascade", "include_locals", "extensions", "ignore", "respect_gitignore",
   "cache_dir", "default_limit"]

/-- Reads a configuration. -/
def ofJson? (p : Parsed) : Option Config :=
  let base : Config := {}
  match p.record? fieldNames with
  | some [debounceMs, cascade, includeLocals, extensions, ignore, respectGitignore, cacheDir,
      defaultLimit] => do
    let debounceMs ← Parsed.orElse? Parsed.word64? base.debounceMs debounceMs
    let cascade ← Parsed.orElse? Parsed.bool? base.cascade cascade
    let includeLocals ← Parsed.orElse? Parsed.bool? base.includeLocals includeLocals
    let extensions ← Parsed.orElse? (Parsed.list? Parsed.text?) base.extensions extensions
    let ignore ← Parsed.orElse? (Parsed.list? Parsed.text?) base.ignore ignore
    let respectGitignore ← Parsed.orElse? Parsed.bool? base.respectGitignore respectGitignore
    let cacheDir ← Parsed.orElse? Parsed.text? base.cacheDir cacheDir
    let defaultLimit ← Parsed.orElse? Parsed.word64? base.defaultLimit defaultLimit
    some { debounceMs, cascade, includeLocals, extensions, ignore, respectGitignore, cacheDir,
           defaultLimit }
  | _ => none

/-! ## The TOML form -/

/-- A natural number. -/
def tomlWord? : Toml → Option UInt64
  | .integer n => if 0 ≤ n then some (UInt64.ofNat n.toNat) else none
  | _ => none

/-- A truth value. -/
def tomlBool? : Toml → Option Bool
  | .boolean b => some b
  | _ => none

/-- A text. -/
def tomlText? : Toml → Option String
  | .text s => some s
  | _ => none

/-- A list of texts. -/
def tomlTexts? : Toml → Option (List String)
  | .array items => items.mapM tomlText?
  | _ => none

/-- A member of a table, or the value that it has when it is not given. -/
def tomlMember? {α : Type} (f : Toml → Option α) (fallback : α) (ms : Members) (key : String) :
    Option α :=
  match ms.get? key with
  | none => some fallback
  | some v => f v

/-- The configuration that a table describes. Keys that are not fields do not count. -/
def ofToml? (ms : Members) : Option Config := do
  let base : Config := {}
  let debounceMs ← tomlMember? tomlWord? base.debounceMs ms "debounce_ms"
  let cascade ← tomlMember? tomlBool? base.cascade ms "cascade"
  let includeLocals ← tomlMember? tomlBool? base.includeLocals ms "include_locals"
  let extensions ← tomlMember? tomlTexts? base.extensions ms "extensions"
  let ignore ← tomlMember? tomlTexts? base.ignore ms "ignore"
  let respectGitignore ← tomlMember? tomlBool? base.respectGitignore ms "respect_gitignore"
  let cacheDir ← tomlMember? tomlText? base.cacheDir ms "cache_dir"
  let defaultLimit ← tomlMember? tomlWord? base.defaultLimit ms "default_limit"
  some { debounceMs, cascade, includeLocals, extensions, ignore, respectGitignore, cacheDir,
         defaultLimit }

/-! ## Overrides -/

/-- Reads the digits of a number of 64 bits. -/
def digits64? (cs : List Char) : Option UInt64 :=
  if !cs.isEmpty && cs.all Json.isDigit then
    let n := Json.digitsValue cs
    if n < UInt64.size then some (UInt64.ofNat n) else none
  else none

/-- Reads a number of 64 bits, which may have a plus sign. -/
def readWord64? (text : String) : Option UInt64 :=
  match text.toList with
  | '+' :: rest => digits64? rest
  | cs => digits64? cs

/-- Reads a truth value. -/
def readBool? (text : String) : Option Bool :=
  if text = "true" then some true else if text = "false" then some false else none

/-- A field that a name of the environment overrides. -/
structure Override where
  name : String
  change? : Config → String → Option Config

/-- The overrides, in the order in which they are applied. -/
def overrides : List Override :=
  [⟨"ARBOR_DEBOUNCE_MS", fun c t => (readWord64? t).map fun n => { c with debounceMs := n }⟩,
   ⟨"ARBOR_CASCADE", fun c t => (readBool? t).map fun b => { c with cascade := b }⟩,
   ⟨"ARBOR_INCLUDE_LOCALS", fun c t => (readBool? t).map fun b => { c with includeLocals := b }⟩]

/-- Applies overrides in order up to the first with a value that cannot be read. -/
def applyOverrides (source : Path) (env : Environment) :
    List Override → Config → Config × Option Error
  | [], c => (c, none)
  | o :: rest, c =>
    match env[o.name]? with
    | none => applyOverrides source env rest c
    | some value =>
      match o.change? c (Text.trim value) with
      | some c => applyOverrides source env rest c
      | none => (c, some (.config source s!"{o.name}={value} is not a valid value"))

/-- Applies the overrides of an environment; an error names the source of the configuration. -/
def applyEnvironment (source : Path) (env : Environment) (c : Config) : Config × Option Error :=
  applyOverrides source env overrides c

/-! ## Loading -/

/-- The name of the configuration file at a project's root. -/
def fileName : Path := ⟨"arbor.toml"⟩

/-- The name of the environment file at a project's root. -/
def environmentFile : Path := ⟨".env"⟩

/-- The environment with the assignments of the project's environment file. -/
def environmentOf (disk : Disk) (root : Path) (env : Environment) : Environment :=
  match disk.read (root.join environmentFile) with
  | .ok text => env.load text
  | .error _ => env

/-- The configuration that a file holds. -/
def ofFile (disk : Disk) (path : Path) : Except Error Config :=
  if disk.exists? path then
    match disk.read path with
    | .error _ => .error .io
    | .ok text =>
      match (Toml.parse? text).bind ofToml? with
      | some c => .ok c
      | none => .error (.config path "TOML parse error")
  else .ok {}

/-- The configuration of the project at a root, with the overrides of the environment. -/
def load (disk : Disk) (root : Path) (env : Environment) : Except Error Config := do
  let path := root.join fileName
  let c ← ofFile disk path
  match c.applyEnvironment path (environmentOf disk root env) with
  | (c, none) => .ok c
  | (_, some e) => .error e

end Config

end CodeGraph

import CodeGraph.Path
import CodeGraph.Text.Blank

/-!
# Errors

What can go wrong, by cause, with the wording in one place.

* `Error`, `Error.message`: the causes and their texts.
* `readWord`: a word of a closed vocabulary, or the error that names what was expected.
-/

namespace CodeGraph

/-- Why a collaborator failed: it gave a text, or the system refused an operation. -/
inductive Cause where
  | text (message : String)
  | system
  deriving DecidableEq, Repr

/-- The causes of failure. -/
inductive Error where
  /-- A caller gave a word outside the vocabulary of a parameter. -/
  | invalidParameter (name value expected : String)
  /-- The analyzer failed on one file. -/
  | analysis (path : Path) (cause : Cause)
  /-- The repository could not store or drop the graph of one file. -/
  | persistence (path : Path) (cause : Cause)
  /-- A project root could not be established. -/
  | projectRoot (path : Path)
  /-- A configuration is not acceptable. -/
  | config (path : Path) (reason : String)
  /-- The system refused a file operation. -/
  | io
  /-- A text is not the JSON form of the wanted value. -/
  | json
  /-- No graph has been stored. -/
  | noSnapshot (path : Path)
  /-- A failure known by what was being done. -/
  | during (activity : String) (cause : Cause)
  deriving DecidableEq, Repr

/-- The wording of an error. -/
def Error.message : Error → String
  | invalidParameter name value expected => s!"invalid {name} '{value}': expected {expected}"
  | analysis path _ => s!"analysis of {path.text} failed"
  | persistence path _ => s!"persisting {path.text} failed"
  | projectRoot path => s!"cannot establish project root {path.text}"
  | config path reason => s!"invalid configuration in {path.text}: {reason}"
  | io => "Io"
  | json => "Json"
  | noSnapshot path => s!"no graph snapshot at {path.text}; index the project first"
  | during activity _ => activity

/-- Whether it was the system that refused an operation. -/
def Error.isSystem : Error → Bool
  | analysis _ .system | persistence _ .system | during _ .system => true
  | projectRoot _ | io => true
  | _ => false

/-- The cause that an error passes on, as far as it is a text. -/
def Error.source? : Error → Option String
  | analysis _ (.text message) | persistence _ (.text message) => some message
  | _ => none

/-- Reads a word of a closed vocabulary, without regard to outer blanks and ASCII case. The error
shows the value as it was given. -/
def readWord {α : Type} (parameter expected : String) (words : List (String × α))
    (value : String) : Except Error α :=
  match words.find? fun w => Text.sameWord w.1 (Text.trim value) with
  | some w => .ok w.2
  | none => .error (.invalidParameter parameter value expected)

end CodeGraph

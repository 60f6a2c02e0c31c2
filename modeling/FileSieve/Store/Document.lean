import FileSieve.Files.PathName
import FileSieve.Json.Reader
import FileSieve.Json.Writer
import FileSieve.Host
import FileSieve.Text.Lines
import FileSieve.Text.Utf8

/-!
Stores on disk: each is one JSON document. A missing document reads as nothing, and one that cannot
be read or is no JSON is logged and reads as nothing too. Only where a document is nested too deeply
is reading given up, together with all that would have followed. A failed write is logged and
forgotten.
-/

namespace FileSieve.Store

open Host

/-- The names of the store files. -/
structure Places where
  patterns : String
  session : String
  contexts : String
deriving DecidableEq, Repr

def Places.inDirectory (directory : String) : Places where
  patterns := PathName.resolveIn directory "gitignores.json"
  session := PathName.resolveIn directory "session.json"
  contexts := PathName.resolveIn directory "contexts.json"

def decode (bytes : List UInt8) : Except Json.Fault Json :=
  match Text.ofUtf8? bytes with
  | some text => Json.read (String.ofList (Text.unifyLineEnds text.toList))
  | none => .error .malformed

def encode (value : Json) : String :=
  String.ofList (value.indented 0 ['\n'])

/-- What is logged about a document that cannot be read. -/
def unreadable (name : String) : Log.Record :=
  ⟨.warning, "Cannot read " ++ name⟩

/-- An action that reads documents. It stops at one that is nested too deeply. -/
abbrev Reading := ExceptT Json.Overflow Action

def read (name : String) : Reading (Option Json) := do
  match ← readFile name with
  | .ok bytes =>
    match decode bytes with
    | .ok value => return some value
    | .error (.tooDeep part) => throw part
    | .error .malformed =>
      log (unreadable name)
      return none
  | .error ⟨.notFound, _⟩ => return none
  | .error _ =>
    log (unreadable name)
    return none

/-- Writes a document. The directory it stands in is made first. -/
def write (name : String) (value : Json) : Action Unit := do
  let made ← makeDirectories (PathName.ofText name).parent.toText
  let written ← match made with
    | .ok () => writeFile name (encode value)
    | .error problem => pure (.error problem)
  match written with
  | .ok () => return ()
  | .error _ => log ⟨.warning, "Cannot write " ++ name⟩

end FileSieve.Store

import FileSieve.Files.Problem
import FileSieve.Log
import FileSieve.Program
import FileSieve.Scan.Entry
import FileSieve.Text.Utf16

/-!
What the stores and the command line ask of their host, the system they run on. File names are taken
as they are given; a relative one is seen from the working directory.
-/

namespace FileSieve.Host

/-- A request to the host. -/
inductive Request where
  | readFile (name : String)
  /-- Replaces the contents of a file, which is made if it is missing. -/
  | writeFile (name text : String)
  /-- Makes a directory and those above it, as far as they are missing. -/
  | makeDirectories (name : String)
  /-- Whether a name leads to a directory; a name that is too long is an error. -/
  | isDirectory (name : String)
  /-- The absolute name, without links and dots, of what a name leads to. -/
  | resolve (name : String)
  | workingDirectory
  | list (directory : String)
  | freshId
  | print (text : Utf16)
  /-- Drops log records below a threshold from now on. -/
  | logFrom (threshold : Nat)
  | log (record : Log.Record)

def Answer : Request → Type
  | .readFile _ => Except FileProblem (List UInt8)
  | .writeFile _ _ => Except FileProblem Unit
  | .makeDirectories _ => Except FileProblem Unit
  | .isDirectory _ => Except FileProblem Bool
  | .resolve _ => Except FileProblem String
  | .workingDirectory => String
  | .list _ => Except ListingFailure (List Entry)
  | .freshId => String
  | .print _ => Unit
  | .logFrom _ => Unit
  | .log _ => Unit

/-- What the stores and the command line ask for. -/
abbrev interface : Interface := ⟨Request, Answer⟩

abbrev Action := Program interface

def ask (q : Request) : Action (Answer q) :=
  Program.request (I := interface) q

def readFile (name : String) : Action (Except FileProblem (List UInt8)) := ask (.readFile name)

def writeFile (name text : String) : Action (Except FileProblem Unit) :=
  ask (.writeFile name text)

def makeDirectories (name : String) : Action (Except FileProblem Unit) :=
  ask (.makeDirectories name)

def isDirectory (name : String) : Action (Except FileProblem Bool) := ask (.isDirectory name)

def resolve (name : String) : Action (Except FileProblem String) := ask (.resolve name)

def workingDirectory : Action String := ask .workingDirectory

def list (directory : String) : Action (Except ListingFailure (List Entry)) :=
  ask (.list directory)

def freshId : Action String := ask .freshId

def print (text : Utf16) : Action Unit := ask (.print text)

/-- Drops log records below a threshold from now on. -/
def logFrom (threshold : Nat) : Action Unit := ask (.logFrom threshold)

def log (record : Log.Record) : Action Unit := ask (.log record)

end FileSieve.Host

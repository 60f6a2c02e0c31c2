import FileSieve.Text.Quoted

/-!
What can go wrong with a file: the cause, and the path as it was given.
-/

namespace FileSieve

/-- Why a file operation fails. -/
inductive FileCause where
  | notFound
  | alreadyThere
  | notDirectory
  | isDirectory
  | nameTooLong
  | linkLoop
  /-- A name cannot be resolved because its links lead round in a circle. -/
  | circle
  /-- The name holds a null character, which no file name can. -/
  | nullInName
  /-- Any other cause, in the words of the system. -/
  | other (text : String)
deriving DecidableEq, Repr

/-- The number and the text that the system gives to a cause. -/
def FileCause.code? : FileCause → Option (Nat × String)
  | notFound => some (2, "No such file or directory")
  | alreadyThere => some (17, "File exists")
  | notDirectory => some (20, "Not a directory")
  | isDirectory => some (21, "Is a directory")
  | nameTooLong => some (36, "File name too long")
  | linkLoop => some (40, "Too many levels of symbolic links")
  | circle | nullInName | other _ => none

/-- A file operation that failed. -/
structure FileProblem where
  cause : FileCause
  path : String
deriving DecidableEq, Repr

def FileProblem.message (p : FileProblem) : String :=
  match p.cause.code? with
  | some (number, text) =>
    "[Errno " ++ toString number ++ "] " ++ text ++ ": " ++ Text.quote p.path
  | none =>
    match p.cause with
    | .circle => "Symlink loop from " ++ Text.quote p.path
    | .other text => text
    | _ => "embedded null byte"

/-- Whether a problem comes from the file system and not from the name itself. -/
def FileProblem.isSystem (p : FileProblem) : Bool := p.cause ≠ .nullInName

end FileSieve

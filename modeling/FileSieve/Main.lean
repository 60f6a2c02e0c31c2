import FileSieve.CommandLine.Run

/-!
The program itself: the command line, run on the real file system.
-/

namespace FileSieve.Host

/-- The number that the system gives to an error. Some errors carry it with its sign turned. -/
def errorNumber : IO.Error → Nat
  | .alreadyExists _ n _ | .otherError n _ | .resourceBusy n _ | .resourceVanished n _
  | .unsupportedOperation n _ | .hardwareFault n _ | .unsatisfiedConstraints n _
  | .illegalOperation n _ | .protocolError n _ | .timeExpired n _ | .interrupted _ n _
  | .noFileOrDirectory _ n _ | .invalidArgument _ n _ | .permissionDenied _ n _
  | .resourceExhausted _ n _ | .inappropriateType _ n _ | .noSuchThing _ n _ =>
    min n.toNat (UInt32.size - n.toNat)
  | .unexpectedEof | .userError _ => 0

def numberedCauses : List FileCause :=
  [.notFound, .alreadyThere, .notDirectory, .isDirectory, .nameTooLong, .linkLoop]

def causeOf (error : IO.Error) : FileCause :=
  let number := errorNumber error
  (numberedCauses.find? fun cause => cause.code?.any (·.1 = number)).getD
    (.other (toString error))

/-- Does something with a file, whose name must not hold a null character. -/
def attempt {α : Type} (name : String) (work : IO α) : IO (Except FileProblem α) := do
  if name.toList.contains '\x00' then
    return .error ⟨.nullInName, name⟩
  match ← work.toBaseIO with
  | .ok value => return .ok value
  | .error error => return .error ⟨causeOf error, name⟩

/-- The text of a name with the given parts, the last of them first. -/
def nameOf (reversed : List String) : String :=
  PathName.toText ⟨1, reversed.reverse⟩

/-- The absolute name of what a name leads to, with its last part first. What is missing at its end
stays as it is named, apart from double dots. -/
def resolveParts : List String → BaseIO String
  | [] => return "/"
  | part :: above => do
    match ← EIO.toBaseIO ( IO.FS.realPath (nameOf (part :: above))) with
    | .ok path => return path.toString
    | .error _ =>
      let base := PathName.ofText (← resolveParts above)
      return if part = ".." then base.parent.toText
        else (base.under (PathName.ofText part)).toText

def resolveName (name : String) : IO (Except FileProblem String) := do
  let directory ← IO.currentDir
  match ← attempt name (directory / name).metadata with
  | .error ⟨.nullInName, _⟩ => return .error ⟨.nullInName, name⟩
  | .error ⟨.linkLoop, _⟩ => return .error ⟨.circle, name⟩
  | _ =>
    let parts := ((PathName.ofText directory.toString).under (PathName.ofText name)).parts
    return .ok (← resolveParts parts.reverse)

/-- The entries of a directory. A link is not followed, so it is no directory. -/
def listDirectory (directory : String) : IO (List Entry) := do
  let found ← ((← IO.currentDir) / directory).readDir
  found.toList.mapM fun item => do
    let kind ← item.path.symlinkMetadata.toBaseIO
    let isDirectory := match kind with
      | .ok facts => facts.type == .dir
      | .error _ => false
    return ⟨item.fileName, isDirectory, PathName.resolveIn directory item.fileName⟩

/-- Answers a request on the real system. The state is the threshold of the log, which goes to the
error output. -/
def answer : (q : Request) → StateT Nat IO (Answer q)
  | .readFile name => attempt name do
    return (← IO.FS.readBinFile name).toList
  | .writeFile name text => attempt name ( IO.FS.writeFile name text)
  | .makeDirectories name => attempt name ( IO.FS.createDirAll name)
  | .isDirectory name => do
    match ← attempt name do ((← IO.currentDir) / name).metadata with
    | .ok facts => return .ok (facts.type == .dir)
    | .error ⟨.nameTooLong, _⟩ => return .error ⟨.nameTooLong, name⟩
    | .error _ => return .ok false
  | .resolve name => resolveName name
  | .workingDirectory => return (← IO.currentDir).toString
  | .list directory => do
    match ← attempt directory (listDirectory directory) with
    | .ok entries => return .ok entries
    | .error problem =>
      return .error (if problem.isSystem then .unreadable problem.message
        else .broken problem.message)
  | .freshId => do
    let bytes ← IO.getRandomBytes 16
    return String.ofList (bytes.toList.flatMap fun b => Text.hex 2 b.toNat)
  | .print text => IO.print text.lossy
  | .logFrom threshold => set threshold
  | .log record => do
    if record.reaches (← get) then
      IO.eprintln (record.level.name ++ " " ++ record.text)

def storeDirectory : IO String := do
  let base ← match ← IO.getEnv "XDG_CONFIG_HOME", ← IO.getEnv "HOME" with
    | some directory, _ => pure directory
    | none, some home => pure (PathName.resolveIn home ".config")
    | none, none => return (← IO.currentDir).toString
  return PathName.resolveIn base "filesieve"

end FileSieve.Host

open FileSieve

/-- Runs the command line on the real file system. -/
def main (arguments : List String) : IO UInt32 := do
  let setting : CommandLine.Setting :=
    { places := Store.Places.inDirectory (← Host.storeDirectory)
      environmentLevel := ← IO.getEnv "FILESIEVE_LOG_LEVEL" }
  let action := CommandLine.run setting arguments
  let (outcome, _) ←
    (Program.run (I := Host.interface) Host.answer action).run Log.defaultThreshold
  if let some message := outcome.message? then
    IO.eprintln message
  return outcome.exitCode.toUInt32

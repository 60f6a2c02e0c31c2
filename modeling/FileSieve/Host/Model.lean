import FileSieve.Files.Resolution
import FileSieve.Host

/-!
A host held in memory: a disk, a working directory, a counter for identifiers, the text printed so
far and the log. Every action can be run on it without touching anything real.
-/

namespace FileSieve.Host

/-- The state of a host. -/
structure Model where
  disk : Disk := {}
  directory : Place := []
  idsUsed : Nat := 0
  output : Utf16 := ""
  /-- The threshold below which records are dropped. -/
  threshold : Nat := 0
  /-- The records that have been kept, in order. -/
  log : List Log.Record := []

namespace Model

/-- The path of a name in a directory that is listed under a given name. -/
def entryPath (directory name : String) : String :=
  if directory.toList.getLast? = some '/' then directory ++ name else directory ++ "/" ++ name

/-- The listing of a directory as a scan sees it. A link is not followed, so it is no directory. -/
def listing (m : Model) (directory : String) : Except ListingFailure (List Entry) :=
  match m.disk.list m.directory directory with
  | .ok names => .ok (names.map fun (name, isDirectory) =>
      ⟨name, isDirectory, entryPath directory name⟩)
  | .error problem =>
    .error (if problem.isSystem then .unreadable problem.message else .broken problem.message)

def commit (m : Model) : Except FileProblem Disk → Except FileProblem Unit × Model
  | .ok disk => (.ok (), { m with disk })
  | .error problem => (.error problem, m)

def answer : (q : Request) → StateM Model (Answer q)
  | .readFile name => do
    let m ← get
    return m.disk.read m.directory name
  | .writeFile name text =>
    modifyGet fun m => m.commit (m.disk.write m.directory name (Text.toUtf8 text))
  | .makeDirectories name =>
    modifyGet fun m => m.commit (m.disk.makeDirectories m.directory name)
  | .isDirectory name => do
    let m ← get
    return m.disk.isDirectory m.directory name
  | .resolve name => do
    let m ← get
    return m.disk.resolve m.directory name
  | .workingDirectory => do
    let m ← get
    return Disk.textOf m.directory
  | .list directory => do
    let m ← get
    return m.listing directory
  | .freshId =>
    modifyGet fun m =>
      (String.ofList (Text.hex 32 (m.idsUsed + 1)), { m with idsUsed := m.idsUsed + 1 })
  | .print text => modify fun m => { m with output := m.output ++ text }
  | .logFrom threshold => modify fun m => { m with threshold }
  | .log record => modify fun m =>
      if record.reaches m.threshold then { m with log := m.log ++ [record] } else m

def run {α : Type} (m : Model) (action : Action α) : α × Model :=
  (Program.run (I := interface) answer action).run m

end Model

end FileSieve.Host

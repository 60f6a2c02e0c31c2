import FileSieve.Scan.Result

/-!
Scanning level by level: the directories of one level are listed by workers in any order, the next
level begins when all of them are done, and the tree is put together at the end. Before each level
the scan asks whether it has been called off.
-/

namespace FileSieve.Scan

variable {α : Type} [PathRule α]

/-- A directory to be listed. -/
structure Job where
  directory : String
  relative : String
deriving DecidableEq, Repr

/-- The order in which the workers get through the numbered jobs of each level. -/
structure Schedule where
  arrange : Nat → List (Nat × Job) → List (Nat × Job)
  perm : ∀ level jobs, (arrange level jobs).Perm jobs

def Schedule.inOrder : Schedule := ⟨fun _ jobs => jobs, fun _ _ => .refl _⟩

abbrev Outcome := Except Fault (List VisibleEntry)

/-- Carries out the jobs of a level in the order of the schedule. All of them are carried out, even
after one has gone wrong; the outcomes come in the order of the jobs. -/
def runLevel (rules : List α) (schedule : Schedule) (level : Nat) (jobs : List Job) :
    Program interface (List Outcome) := do
  let numbered := (List.range jobs.length).zip jobs
  let outcomes ← (schedule.arrange level numbered).mapM fun (number, job) => do
    let outcome ← (readVisible rules job.directory job.relative).run
    return (number, outcome)
  return (List.range jobs.length).filterMap fun number => outcomes.lookup number

/-- The visible entries found so far by directory, newest first. -/
abbrev Listings := List (String × List VisibleEntry)

/-- The jobs for the directories among visible entries. -/
def jobsFor (entries : List VisibleEntry) : List Job :=
  (directories entries).map fun v => ⟨v.entry.path, v.relative⟩

/-- Lists the directories of a level and of the levels below it, at most `depth` levels; `none` if
the scan has been called off. Of several faults on a level the first in the order of the jobs
counts. -/
def collect (rules : List α) (schedule : Schedule) (depth level : Nat) (frontier : List Job)
    (found : Listings) : Scanning (Option Listings) :=
  match frontier, depth with
  | [], _ => return some found
  | _ :: _, 0 => throw .tooDeep
  | job :: jobs, depth + 1 => do
    if ← askCancelled then
      return none
    let outcomes ← runLevel rules schedule level (job :: jobs)
    let entries ← outcomes.mapM fun outcome => ExceptT.mk (pure outcome)
    let found := (((job :: jobs).map Job.directory).zip entries).reverse ++ found
    collect rules schedule depth (level + 1) (entries.flatMap jobsFor) found

/-- The nodes of a directory from the listings; a directory without a listing has none. -/
def nodesFrom (found : Listings) (depth : Nat) (directory : String) : Except Fault (List Node) :=
  match depth with
  | 0 => throw .tooDeep
  | depth + 1 => do
    let entries := (found.lookup directory).getD []
    let subtrees ← (directories entries).mapM fun v => do
      let children ← nodesFrom found depth v.entry.path
      return (v, children)
    return assemble subtrees (files entries)

/-- The number of workers that is used: at least one. -/
def workerCount (workers : Int) : Int := max 1 workers

/-- Scans a root with a number of workers; `none` if the scan has been called off. -/
def byLevels (rules : List α) (schedule : Schedule) (workers : Int) (depth : Nat) (root : String) :
    Scanning (Option ScanResult) := do
  match ← collect rules schedule depth 0 [⟨root, ""⟩] [] with
  | none =>
    sendLog .info ("Scan of " ++ root ++ " cancelled")
    return none
  | some found =>
    let tree ← ExceptT.mk (pure (nodesFrom found depth root))
    let found := result root tree
    sendLog .info ("Scanned " ++ root ++ " with " ++ toString (workerCount workers) ++
      " workers: " ++ toString found.files.length ++ " files visible")
    return some found

end FileSieve.Scan

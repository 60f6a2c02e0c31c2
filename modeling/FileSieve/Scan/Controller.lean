import FileSieve.Rule.Cache
import FileSieve.Scan.DepthFirst
import FileSieve.Scan.Levels
import FileSieve.Selection.Change
import FileSieve.Selection.Check

/-!
The controller of the scans of a project: it keeps the rules, the latest result, the selection and
the active path. Scans are numbered, and a result whose number is no longer the latest is dropped.
-/

namespace FileSieve

/-- The state of a project. -/
structure Controller where
  cache : RuleCache := RuleCache.ofCapacity RuleCache.defaultCapacity
  /-- The number of workers; a scan without workers goes depth first. -/
  workers : Int := 0
  generation : Int := 0
  result : Option ScanResult := none
  rules : List Rule := []
  selection : Selection := ∅
  active : Option String := none

/-- A path that a selection was asked to toggle does not belong to the tree. -/
inductive SelectionError where
  | unknownPath (path : String)
  /-- The node with the path is not a node of the given tree. -/
  | foreignNode (path : String)
deriving DecidableEq, Repr

def SelectionError.message : SelectionError → String
  | unknownPath path => "path is not part of the current tree: " ++ path
  | foreignNode path => "node is not part of the given tree: " ++ path

namespace Controller

/-- Opens a new scan, which supersedes all earlier ones. -/
def start (c : Controller) : Int × Controller :=
  (c.generation + 1, { c with generation := c.generation + 1 })

def isCurrent (c : Controller) (generation : Int) : Bool :=
  generation == c.generation

/-- Installs a result if its scan is still the latest one; this empties the selection and resets the
active path. -/
def accept (c : Controller) (generation : Int) (result : Option ScanResult)
    (rules : List Rule) : Bool × Controller :=
  if c.isCurrent generation then
    match result with
    | some found =>
      (true, { c with result := some found, rules, selection := ∅, active := none })
    | none => (false, c)
  else (false, c)

/-- The current tree; before the first result it is empty. -/
def tree (c : Controller) : List Node :=
  (c.result.map ScanResult.tree).getD []

def files (c : Controller) : List FlatFile :=
  (c.result.map ScanResult.files).getD []

def find? (c : Controller) (path : String) : Option Node :=
  Tree.find? c.tree path

/-- The decision of the current rules about a path. -/
def explain (c : Controller) (path : String) : Decision Rule :=
  FileSieve.explain c.rules path

def checkStates (c : Controller) : CheckStates :=
  FileSieve.checkStates c.tree c.selection

def toggle (c : Controller) (path : String) : Except SelectionError Controller :=
  match c.find? path with
  | none => .error (.unknownPath path)
  | some node => .ok { c with selection := c.selection.toggle node }

/-- Replaces the selection by the saved paths that are still there. -/
def restore (c : Controller) (saved : List String) : Controller :=
  { c with selection := Selection.restore saved c.files }

def setActive (c : Controller) (path : Option String) : Controller :=
  { c with active := path }

def apply (c : Controller) (change : SelectionChange) : SelectionChange × Controller :=
  (change, { c with
    selection := change.selection
    active := if change.activeCleared then none else c.active })

def add (c : Controller) (paths : List String) : SelectionChange × Controller :=
  c.apply (c.selection.add paths)

def remove (c : Controller) (paths : List String) : SelectionChange × Controller :=
  c.apply (c.selection.remove paths c.active)

/-- Takes the paths for which a test holds out of the selection. -/
def removeWhere (c : Controller) (p : String → Bool) : SelectionChange × Controller :=
  c.apply (c.selection.removeWhere p c.active)

def clearSelection (c : Controller) : SelectionChange × Controller :=
  c.removeWhere fun _ => true

end Controller

namespace Control

/-- A request of a scan to its controller and to what surrounds it. -/
inductive Request where
  | start
  | isCurrent (generation : Int)
  | rules (patterns : List String)
  | accept (generation : Int) (result : Option ScanResult) (rules : List Rule)
  | workers
  | list (directory : String)
  | log (record : Log.Record)

abbrev Answer : Request → Type
  | .start => Int
  | .isCurrent _ => Bool
  | .rules _ => List Rule
  | .accept _ _ _ => Bool
  | .workers => Int
  | .list _ => Except ListingFailure (List Entry)
  | .log _ => Unit

abbrev interface : Interface := ⟨Request, Answer⟩

def ask (q : Request) : Program interface (Answer q) :=
  Program.request (I := interface) q

/-- Answers what a tree builder asks: a scan without a number is never called off, any other one as
soon as it is superseded. -/
def serve (generation : Option Int) : (q : Scan.Request) → Program interface (Scan.Answer q)
  | .list directory => ask (.list directory)
  | .log record => ask (.log record)
  | .cancelled =>
    match generation with
    | none => pure false
    | some g => do
      let current : Bool ← ask (.isCurrent g)
      return !current

abbrev Controlled := ExceptT Scan.Fault (Program interface)

/-- Runs a tree builder as a part of a controlled scan. -/
def build {α : Type} (generation : Option Int) (scan : Scan.Scanning α) : Controlled α :=
  ExceptT.mk (Program.run (I := Scan.interface) (serve generation) scan.run)

/-- Builds a tree with the rules of an ignore list. With workers the scan goes level by level and
stops between levels once it has been superseded. -/
def buildTree (schedule : Scan.Schedule) (depth : Nat) (root : String) (patterns : List String)
    (generation : Option Int) : Controlled (Option ScanResult × List Rule) := do
  let rules : List Rule ← ask (.rules patterns)
  let workers : Int ← ask .workers
  if workers > 0 then
    let found ← build generation (Scan.byLevels rules schedule workers depth root)
    return (found, rules)
  else
    let found ← build generation (Scan.depthFirst rules depth root)
    return (some found, rules)

/-- Runs one whole scan; `none` if it was superseded before its result could be installed. -/
def scan (schedule : Scan.Schedule) (depth : Nat) (root : String) (patterns : List String) :
    Controlled (Option ScanResult) := do
  let generation : Int ← ask .start
  let (found, rules) ← buildTree schedule depth root patterns (some generation)
  let accepted : Bool ← ask (.accept generation found rules)
  return if accepted then found else none

/-- The record about a result that comes too late. -/
def staleRecord (generation : Int) : Log.Record :=
  ⟨.debug, "Dropping result of stale scan generation " ++ toString generation⟩

/-- Answers requests with the controller that a monad keeps; listings and the log are left to what
surrounds it. -/
def respond {m : Type → Type} [Monad m] [MonadStateOf Controller m]
    (list : String → m (Except ListingFailure (List Entry))) (log : Log.Record → m Unit) :
    (q : Request) → m (Answer q)
  | .start => modifyGet Controller.start
  | .isCurrent generation => do
    let c : Controller ← get
    return c.isCurrent generation
  | .rules patterns => do
    let c : Controller ← get
    let (rules, records, cache) := c.cache.get patterns
    set { c with cache }
    records.forM log
    return rules
  | .accept generation found rules => do
    let c : Controller ← get
    let (accepted, c) := c.accept generation found rules
    set c
    if !accepted then
      log (staleRecord generation)
    return accepted
  | .workers => do
    let c : Controller ← get
    return c.workers
  | .list directory => list directory
  | .log record => log record

end Control

end FileSieve

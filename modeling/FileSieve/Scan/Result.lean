import FileSieve.Program
import FileSieve.Scan.Entry
import FileSieve.Tree.Order
import FileSieve.Tree.Walk

/-!
The result of a scan, and what a scan asks of its surroundings: listings, a place for log records,
and whether it has been called off.
-/

namespace FileSieve

/-- The tree of a scanned root with the flat index of its files. -/
structure ScanResult where
  root : String
  tree : List Node
  files : List FlatFile
deriving DecidableEq

namespace Scan

/-- A request of a scan. -/
inductive Request where
  | list (directory : String)
  | log (record : Log.Record)
  | cancelled

abbrev Answer : Request → Type
  | .list _ => Except ListingFailure (List Entry)
  | .log _ => Unit
  | .cancelled => Bool

abbrev interface : Interface := ⟨Request, Answer⟩

/-- Why a scan stops without a result. -/
inductive Fault where
  | listing (reason : String)
  /-- Directories are nested more deeply than the scan may go. -/
  | tooDeep
deriving DecidableEq, Repr

def Fault.message : Fault → String
  | listing reason => reason
  | tooDeep => "directories are nested too deeply"

/-- A scan in progress: a program that may stop with a fault. -/
abbrev Scanning := ExceptT Fault (Program interface)

def askListing (directory : String) :
    Program interface (Except ListingFailure (List Entry)) :=
  Program.request (I := interface) (.list directory)

def sendLog (level : Log.Level) (text : String) : Program interface Unit :=
  Program.request (I := interface) (.log ⟨level, text⟩)

def askCancelled : Program interface Bool :=
  Program.request (I := interface) .cancelled

variable {α : Type} [PathRule α]

/-- The visible entries of a directory. A directory that cannot be read is logged and has none. -/
def readVisible (rules : List α) (directory relative : String) : Scanning (List VisibleEntry) :=
  ExceptT.mk do
    match ← askListing directory with
    | .ok entries => return .ok (visible rules relative entries)
    | .error (.unreadable reason) =>
      sendLog .warning ("Cannot read directory " ++ directory ++ ": " ++ reason)
      return .ok []
    | .error (.broken reason) => return .error (.listing reason)

/-- The nodes of a directory in order, from its subdirectories with the nodes found in each and from
its files. A subdirectory without nodes is left out. -/
def assemble (subtrees : List (VisibleEntry × List Node)) (files : List VisibleEntry) : List Node :=
  Node.sort <|
    (subtrees.filterMap fun (v, children) =>
      if children.isEmpty then none else some (.directory v.entry.name v.entry.path children)) ++
    files.map fun v => .file v.entry.name v.entry.path

def result (root : String) (tree : List Node) : ScanResult :=
  ⟨root, tree, Tree.flatFiles tree⟩

end Scan

end FileSieve

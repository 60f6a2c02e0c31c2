import FileSieve.Selection.Basic
import FileSieve.Tree.Walk

/-!
Check states: a file is checked or not, and a directory shows whether all, some or none of the files
below it are selected. The states come from one pass that counts files upwards.
-/

namespace FileSieve

/-- What a node shows of the selection. -/
inductive CheckState where
  | checked
  | unchecked
  | indeterminate
deriving DecidableEq, Repr

namespace CheckState

def name : CheckState → String
  | checked => "checked"
  | unchecked => "unchecked"
  | indeterminate => "indeterminate"

def mark : CheckState → String
  | checked => "[x]"
  | indeterminate => "[-]"
  | unchecked => "[ ]"

/-- The state of a directory with a number of files, some of which are selected. -/
def ofCounts (total selected : Nat) : CheckState :=
  if total = 0 || selected = 0 then unchecked
  else if selected = total then checked
  else indeterminate

end CheckState

/-- States by path. Where a path has several entries the last one counts. -/
abbrev CheckStates := List (String × CheckState)

def CheckStates.get? (states : CheckStates) (path : String) : Option CheckState :=
  states.reverse.lookup path

/-- The paths that have a state in ascending order, each with the state that counts. -/
def CheckStates.listed (states : CheckStates) : List (String × CheckState) :=
  (Selection.ofList (states.map (·.1))).paths.map fun path =>
    (path, (states.get? path).getD .unchecked)

/-- The number of files below a node, how many of them are selected, and the states found. -/
structure CheckCount where
  total : Nat
  selected : Nat
  states : CheckStates

mutual

/-- Counts the files at and below a node; its own state comes after those below it. -/
def checkNode (s : Selection) : Node → CheckCount
  | .file _ path =>
    if path ∈ s then ⟨1, 1, [(path, .checked)]⟩ else ⟨1, 0, [(path, .unchecked)]⟩
  | .directory _ path children =>
    let below := checkNodes s children
    ⟨below.total, below.selected,
      below.states ++ [(path, .ofCounts below.total below.selected)]⟩

def checkNodes (s : Selection) : List Node → CheckCount
  | [] => ⟨0, 0, []⟩
  | node :: rest =>
    let first := checkNode s node
    let more := checkNodes s rest
    ⟨first.total + more.total, first.selected + more.selected, first.states ++ more.states⟩

end

def checkStates (tree : List Node) (s : Selection) : CheckStates :=
  (checkNodes s tree).states

/-- The marker that shows the state of each node; a node without a state is not checked. -/
def checkMarker (states : CheckStates) (node : Node) : String :=
  ((states.get? node.path).getD .unchecked).mark

end FileSieve

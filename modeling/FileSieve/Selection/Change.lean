import FileSieve.Selection.Basic
import FileSieve.Tree.Walk

/-!
Changing a selection: toggling a node, adding and removing paths, and restoring a saved selection.
-/

namespace FileSieve

/-- A new selection and what a removal did. -/
structure SelectionChange where
  selection : Selection
  removed : Selection := ∅
  activeCleared : Bool := false
deriving DecidableEq, Repr

namespace Selection

/-- Toggles every file at or below a node: if all of them are selected they are taken out, otherwise
all of them are put in. A node without files changes nothing. -/
def toggle (node : Node) (s : Selection) : Selection :=
  let paths := Tree.filePaths node
  if paths.isEmpty then s
  else if paths.all (· ∈ s) then s.diff paths
  else s.union paths

/-- Toggles a node of a tree; `none` if the tree does not contain it. -/
def toggleIn? (tree : List Node) (node : Node) (s : Selection) : Option Selection :=
  if Tree.contains tree node then some (s.toggle node) else none

def add (s : Selection) (paths : List String) : SelectionChange :=
  { selection := s.union paths }

def remove (s : Selection) (paths : List String) (active : Option String) : SelectionChange :=
  let removed := s.inter paths
  { selection := s.diff removed.paths
    removed
    activeCleared := active.any (· ∈ removed) }

def removeWhere (s : Selection) (p : String → Bool) (active : Option String) : SelectionChange :=
  s.remove (s.filter p).paths active

/-- The saved paths that are still in the flat index. -/
def restore (saved : List String) (files : List FlatFile) : Selection :=
  ofList (saved.filter fun path => (files.map FlatFile.path).contains path)

def inTreeOrder (tree : List Node) (s : Selection) : List String :=
  (tree.flatMap Tree.filePaths).filter (· ∈ s)

end Selection

end FileSieve

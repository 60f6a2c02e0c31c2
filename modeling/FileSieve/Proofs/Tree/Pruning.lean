import FileSieve.Scan.Entry
import FileSieve.Tree.Walk

/-! # Leaving files out of a tree

Files are left out by their paths from the root, and after that directories without a file. The flat
index shrinks to the files that stay. -/

namespace FileSieve.Tree

open Scan

/-! ## Operations on trees -/

mutual

/-- A node without the files whose paths fail a test. -/
def keepNode? (p : String → Bool) (above : String) : Node → Option Node
  | .file label path => if p (joinRelative above label) then some (.file label path) else none
  | .directory label path children =>
    some (.directory label path (keepFiles p (joinRelative above label) children))

/-- The nodes in a directory without the files whose paths from the root fail a test. -/
def keepFiles (p : String → Bool) (above : String) : List Node → List Node
  | [] => []
  | node :: rest =>
    match keepNode? p above node with
    | none => keepFiles p above rest
    | some kept => kept :: keepFiles p above rest

end

mutual

/-- A node without the directories in which there is no file. -/
def filledNode? : Node → Option Node
  | .file label path => some (.file label path)
  | .directory label path children =>
    if (flatFiles children).isEmpty then none else some (.directory label path (filled children))

/-- The nodes without the directories in which there is no file. -/
def filled : List Node → List Node
  | [] => []
  | node :: rest =>
    match filledNode? node with
    | none => filled rest
    | some kept => kept :: filled rest

end

mutual

/-- A node without what stands in directories with a given kind of path. -/
def emptiedNode (fails : String → Bool) : Node → Node
  | .file label path => .file label path
  | .directory label path children =>
    .directory label path (if fails path then [] else emptied fails children)

/-- The nodes without what stands in directories with a given kind of path. -/
def emptied (fails : String → Bool) : List Node → List Node
  | [] => []
  | node :: rest => emptiedNode fails node :: emptied fails rest

end

mutual

/-- The files at and below a node with their paths from the root. -/
def locatedNode (above : String) : Node → List (String × FlatFile)
  | .file label path => [(joinRelative above label, ⟨label, path⟩)]
  | .directory label _ children => located (joinRelative above label) children

/-- The files below a directory in pre-order with their paths from the root. -/
def located (above : String) : List Node → List (String × FlatFile)
  | [] => []
  | node :: rest => locatedNode above node ++ located above rest

end

/-! ## Item by item -/

/-- Trees are built from a first node and the rest, and a directory from its children. -/
@[elab_as_elim]
theorem induction {motive : List Node → Prop} (nil : motive [])
    (file : ∀ label path rest, motive rest → motive (.file label path :: rest))
    (directory : ∀ label path children rest, motive children → motive rest →
      motive (.directory label path children :: rest)) : ∀ tree, motive tree
  | [] => nil
  | .file label path :: rest => file label path rest (induction nil file directory rest)
  | .directory label path children :: rest =>
    directory label path children rest (induction nil file directory children)
      (induction nil file directory rest)

theorem keepFiles_eq_filterMap (p : String → Bool) (above : String) (tree : List Node) :
    keepFiles p above tree = tree.filterMap (keepNode? p above) := by
  induction tree with
  | nil => rfl
  | cons node rest ih =>
    rw [keepFiles, List.filterMap_cons, ih]
    cases keepNode? p above node <;> rfl

theorem filled_eq_filterMap (tree : List Node) : filled tree = tree.filterMap filledNode? := by
  induction tree with
  | nil => rfl
  | cons node rest ih =>
    rw [filled, List.filterMap_cons, ih]
    cases filledNode? node <;> rfl

theorem emptied_eq_map (fails : String → Bool) (tree : List Node) :
    emptied fails tree = tree.map (emptiedNode fails) := by
  induction tree with
  | nil => rfl
  | cons node rest ih => rw [emptied, ih, List.map_cons]

theorem flatFiles_file (label path : String) (rest : List Node) :
    flatFiles (.file label path :: rest) = ⟨label, path⟩ :: flatFiles rest := rfl

theorem flatFiles_directory (label path : String) (children rest : List Node) :
    flatFiles (.directory label path children :: rest) = flatFiles children ++ flatFiles rest := by
  simp [flatFiles, nodes, nodesOf, List.filterMap_cons, Node.flatFile?]

variable {p : String → Bool}

theorem flatFiles_eq_located (above : String) (tree : List Node) :
    flatFiles tree = (located above tree).map Prod.snd := by
  induction tree using induction generalizing above with
  | nil => rfl
  | file label path rest ih =>
    rw [flatFiles_file, located, locatedNode, List.map_append, ← ih above]
    rfl
  | directory label path children rest ihc ih =>
    rw [flatFiles_directory, located, locatedNode, List.map_append, ← ih above, ← ihc]

/-- Leaving files out of a tree leaves them out of its flat index. -/
theorem located_keepFiles (above : String) (tree : List Node) :
    located above (keepFiles p above tree) = (located above tree).filter fun file => p file.1 := by
  induction tree using induction generalizing above with
  | nil => rfl
  | file label path rest ih =>
    rw [located, locatedNode, List.filter_append, ← ih above, keepFiles, keepNode?]
    by_cases hp : p (joinRelative above label) = true
    · simp [hp, located, locatedNode]
    · simp [hp]
  | directory label path children rest ihc ih =>
    rw [keepFiles, keepNode?, located, locatedNode, ihc, ih, located, locatedNode,
      List.filter_append]

theorem filled_eq_nil_iff (tree : List Node) : filled tree = [] ↔ flatFiles tree = [] := by
  induction tree using induction with
  | nil => simp [filled, flatFiles, nodes]
  | file label path rest ih => simp [filled, filledNode?, flatFiles_file]
  | directory label path children rest ihc ih =>
    rw [filled, filledNode?, flatFiles_directory, List.append_eq_nil_iff]
    by_cases hc : flatFiles children = []
    · simp [hc, ih]
    · simp [hc]

/-- Directories without a file do not show in the flat index. -/
theorem located_filled (above : String) (tree : List Node) :
    located above (filled tree) = located above tree := by
  induction tree using induction generalizing above with
  | nil => rfl
  | file label path rest ih =>
    rw [filled, filledNode?, located, ih above, located]
  | directory label path children rest ihc ih =>
    rw [filled, filledNode?, located, locatedNode]
    by_cases hc : flatFiles children = []
    · have hnone : located (joinRelative above label) children = [] := by
        rw [flatFiles_eq_located (joinRelative above label)] at hc
        exact List.map_eq_nil_iff.1 hc
      simp [hc, hnone, ih]
    · simp [hc, located, locatedNode, ihc, ih]

end FileSieve.Tree

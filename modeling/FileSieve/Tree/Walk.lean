import FileSieve.Tree.Basic

/-!
Walking a tree in pre-order: a node comes before its children, and siblings come in their order.
-/

namespace FileSieve.Tree

mutual

def nodesOf : Node → List Node
  | .file label path => [.file label path]
  | .directory label path children => .directory label path children :: nodes children

def nodes : List Node → List Node
  | [] => []
  | node :: rest => nodesOf node ++ nodes rest

end

/-- The flat index of a tree: its files in pre-order. -/
def flatFiles (tree : List Node) : List FlatFile :=
  (nodes tree).filterMap Node.flatFile?

/-- The paths of the files at and below a node in pre-order. -/
def filePaths (node : Node) : List String :=
  (flatFiles [node]).map FlatFile.path

/-- The first node with a path. -/
def find? (tree : List Node) (path : String) : Option Node :=
  (nodes tree).find? (·.path == path)

/-- Whether the first node with the path of a node is equal to it. -/
def contains (tree : List Node) (node : Node) : Bool :=
  find? tree node.path == some node

theorem nodes_append (as bs : List Node) : nodes (as ++ bs) = nodes as ++ nodes bs := by
  induction as with
  | nil => simp [nodes]
  | cons a as ih => simp [nodes, ih]

theorem flatFiles_append (as bs : List Node) :
    flatFiles (as ++ bs) = flatFiles as ++ flatFiles bs := by
  simp [flatFiles, nodes_append]

theorem filePaths_file (label path : String) : filePaths (.file label path) = [path] := rfl

theorem filePaths_directory (label path : String) (children : List Node) :
    filePaths (.directory label path children) = (flatFiles children).map FlatFile.path := by
  simp [filePaths, flatFiles, nodes, nodesOf, List.filterMap_cons, Node.flatFile?]

end FileSieve.Tree

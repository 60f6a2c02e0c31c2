import FileSieve.Tree.Walk

/-!
Trees as text. Each node is one line: bars and blanks for the levels above it, a connector that
tells whether siblings follow, and its label, with a marker before it if there is one.
-/

namespace FileSieve.Tree

/-- The connector of a node, which differs for the last of its siblings. -/
def connector (last : Bool) : String :=
  if last then "└─ " else "├─ "

/-- What stands below a node's connector: a bar as long as siblings follow. -/
def gutter (last : Bool) : String :=
  if last then "    " else "│   "

/-- The label of a node with its marker before it; an empty marker is left out. -/
def caption (marker : Node → String) (node : Node) : String :=
  if marker node = "" then node.label else marker node ++ " " ++ node.label

mutual

/-- The lines of a node and everything below it, after a given lead. -/
def linesOf (marker : Node → String) (lead : String) (last : Bool) : Node → List String
  | .file label path =>
    [lead ++ connector last ++ caption marker (.file label path)]
  | .directory label path children =>
    (lead ++ connector last ++ caption marker (.directory label path children)) ::
      lines marker (lead ++ gutter last) children

def lines (marker : Node → String) (lead : String) : List Node → List String
  | [] => []
  | [node] => linesOf marker lead true node
  | node :: next :: rest =>
    linesOf marker lead false node ++ lines marker lead (next :: rest)

end

/-- The marker that is never shown. -/
def noMarker (_ : Node) : String := ""

/-- The part of a tree below a path, or the whole tree if no path is given or no node has it. -/
def subtree (tree : List Node) (path : Option String) : List Node :=
  match path.filter (· ≠ "") with
  | none => tree
  | some path =>
    match find? tree path with
    | some node => [node]
    | none => tree

/-- The text of a tree, one line a node, each line ended. -/
def text (tree : List Node) (marker : Node → String) : String :=
  String.join ((lines marker "" tree).map (· ++ "\n"))

end FileSieve.Tree

import FileSieve.Text.Fold
import FileSieve.Tree.Basic

/-!
The order in which siblings and flat files are shown. Directories come before files; names are
compared by their case folding first and as they are written second.
-/

namespace FileSieve

/-- Compares names without regard to case, and by their letters when that leaves them equal. -/
def compareNames (a b : String) : Ordering :=
  (compare (Text.foldCase a) (Text.foldCase b)).then (compare a b)

namespace Node

/-- Compares siblings: a directory comes before a file, then names decide. -/
def order (a b : Node) : Ordering :=
  (compare a.isFile b.isFile).then (compareNames a.label b.label)

/-- Siblings in order; nodes that the order does not tell apart keep their places. -/
def sort (siblings : List Node) : List Node :=
  siblings.mergeSort fun a b => (order a b).isLE

end Node

namespace FlatFile

/-- Compares flat files: names decide, then paths. -/
def order (a b : FlatFile) : Ordering :=
  (compareNames a.label b.label).then (compare a.path b.path)

def sort (files : List FlatFile) : List FlatFile :=
  files.mergeSort fun a b => (order a b).isLE

end FlatFile

end FileSieve

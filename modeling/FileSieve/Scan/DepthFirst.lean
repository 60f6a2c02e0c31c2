import FileSieve.Scan.Result

/-!
Scanning depth first: a directory is listed only after the rules have let it through, and its tree
is complete before the next one is listed.
-/

namespace FileSieve.Scan

variable {α : Type} [PathRule α]

/-- The nodes of a directory, with at most `depth` levels of directories below it. -/
def depthFirstNodes (rules : List α) (depth : Nat) (directory relative : String) :
    Scanning (List Node) :=
  match depth with
  | 0 => throw .tooDeep
  | depth + 1 => do
    let entries ← readVisible rules directory relative
    let subtrees ← (directories entries).mapM fun v => do
      let children ← depthFirstNodes rules depth v.entry.path v.relative
      return (v, children)
    return assemble subtrees (files entries)

def depthFirst (rules : List α) (depth : Nat) (root : String) : Scanning ScanResult := do
  let tree ← depthFirstNodes rules depth root ""
  let found := result root tree
  sendLog .info ("Scanned " ++ root ++ ": " ++ toString found.files.length ++ " files visible")
  return found

end FileSieve.Scan

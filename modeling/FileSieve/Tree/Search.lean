import FileSieve.Text.Blank
import FileSieve.Text.Fold
import FileSieve.Text.Occurrence
import FileSieve.Tree.Basic

/-!
Searching the flat index for paths that contain a text, without regard to case.
-/

namespace FileSieve.Tree

/-- Whether as many files are found as a limit asks for. -/
def isEnough (limit : Option Int) (found : Array FlatFile) : Bool :=
  limit.any (· ≤ (found.size : Int))

/-- Adds the files that pass a test to those found, in their order, until there are enough. That is
asked after a file has been added only, so one is added even with a limit below one. -/
def findMore (accepts : FlatFile → Bool) (limit : Option Int) (found : Array FlatFile) :
    List FlatFile → Array FlatFile
  | [] => found
  | file :: rest =>
    if accepts file then
      if isEnough limit (found.push file) then found.push file
      else findMore accepts limit (found.push file) rest
    else findMore accepts limit found rest

/-- The files whose path contains the query, in their order and up to a limit. Blanks around the
query do not count, and a blank query finds nothing. -/
def search (files : List FlatFile) (query : String) (limit : Option Int) : List FlatFile :=
  let needle := Text.foldCase (Text.trim query)
  if needle.isEmpty then []
  else
    let accepts := fun file => Text.occursIn needle (Text.foldCase file.path)
    (findMore accepts limit #[] files).toList

end FileSieve.Tree

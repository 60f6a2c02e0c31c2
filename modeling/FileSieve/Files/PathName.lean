import FileSieve.Text.Pieces

/-!
Path names. A name is cut at its slashes; empty parts and single dots drop out, and double dots
stay, because what they mean depends on links. Two slashes at the front, but not three, are kept as
they are.
-/

namespace FileSieve

/-- A path name taken apart: the number of slashes at its front, and its parts. -/
structure PathName where
  slashes : Nat
  parts : List String
deriving DecidableEq, Repr

namespace PathName

def ofText (s : String) : PathName :=
  let cs := s.toList
  let front := (cs.takeWhile (· = '/')).length
  { slashes := if front > 2 then 1 else front
    parts := ((Text.pieces '/' cs).map String.ofList).filter fun part => part ≠ "" && part ≠ "." }

def isAbsolute (p : PathName) : Bool := p.slashes ≠ 0

/-- The text of a name; the empty name is a single dot. -/
def toText (p : PathName) : String :=
  if p.slashes = 0 && p.parts.isEmpty then "."
  else String.ofList (List.replicate p.slashes '/' ++
    Text.joinPieces '/' (p.parts.map String.toList))

/-- A name seen from a directory; an absolute name stays as it is. -/
def under (directory p : PathName) : PathName :=
  if p.isAbsolute then p else ⟨directory.slashes, directory.parts ++ p.parts⟩

def parent (p : PathName) : PathName :=
  ⟨p.slashes, p.parts.dropLast⟩

def push (p : PathName) (part : String) : PathName :=
  ⟨p.slashes, p.parts ++ [part]⟩

/-- The name one level up: the last part is taken back. Where a relative name has none left to take
back, a double dot is added. -/
def up (p : PathName) : PathName :=
  if p.parts.getLast? = some ".." || (p.parts.isEmpty && !p.isAbsolute) then p.push ".."
  else p.parent

/-- A name without double dots, as far as there are parts that they take back. -/
def straighten (p : PathName) : PathName :=
  p.parts.foldl (fun q part => if part = ".." then q.up else q.push part) ⟨p.slashes, []⟩

def normalize (s : String) : String := (ofText s).toText

/-- Puts one text behind another with a slash between them; a text that begins with a slash stands
for itself. -/
def joinTexts (s t : String) : String :=
  if t.toList.head? = some '/' then t
  else if s = "" || s.toList.getLast? = some '/' then s ++ t
  else s ++ "/" ++ t

def resolveIn (directory name : String) : String :=
  ((ofText directory).under (ofText name)).toText

end PathName

end FileSieve

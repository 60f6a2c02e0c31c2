import FileSieve.Files.PathName
import FileSieve.Files.Problem
import FileSieve.Text.Utf8

/-!
A file system held in memory: files, directories and symbolic links by their place. Names are looked
up part by part, links are followed, and what goes wrong is reported as a system reports it.
-/

namespace FileSieve

/-- A place: the parts of its path from the top. -/
abbrev Place := List String

/-- What stands at a place. -/
inductive Item where
  | file (bytes : List UInt8)
  | link (target : String)
  | directory
deriving DecidableEq, Repr

/-- A file system: its items by place. The top directory is always there. -/
structure Disk where
  items : List (Place × Item) := []
deriving Repr

namespace Disk

def item? (d : Disk) (place : Place) : Option Item :=
  if place = [] then some .directory else d.items.lookup place

def isDirectoryAt (d : Disk) (place : Place) : Bool :=
  d.item? place == some .directory

/-- Puts an item at a place, instead of what stands there. -/
def put (d : Disk) (place : Place) (item : Item) : Disk :=
  if (d.items.lookup place).isSome then
    { items := d.items.map fun entry => if entry.1 = place then (place, item) else entry }
  else { items := d.items ++ [(place, item)] }

/-- Takes away what stands at a place and below it. -/
def erase (d : Disk) (place : Place) : Disk :=
  { items := d.items.filter fun entry => !place.isPrefixOf entry.1 }

def children (d : Disk) (place : Place) : List (String × Item) :=
  d.items.filterMap fun (other, item) =>
    match other.getLast? with
    | some name => if other.dropLast = place then some (name, item) else none
    | none => none

/-- Makes the directories of a place that are missing. -/
def ensureDirectory (d : Disk) (place : Place) : Disk :=
  (List.range place.length).foldl
    (fun d n =>
      let upper := place.take (n + 1)
      if (d.item? upper).isSome then d else d.put upper .directory) d

/-- Where a search for a name has come to. -/
inductive Found where
  | item (place : Place) (item : Item)
  /-- Nothing, but the directory that would hold it is there. A slash after the name means a
  directory. -/
  | missing (place : Place) (slashAfter : Bool)
  /-- A link that must be followed before the other parts of the name. -/
  | link (directory : Place) (target : String) (rest : List String)
deriving DecidableEq, Repr

def partLimit : Nat := 255

def nameLimit : Nat := 4095

/-- Goes down from a place part by part, up to a link that must be followed. A link at the very end
is followed only if that is asked for. -/
def descend (d : Disk) (followLast : Bool) (place : Place) : List String → Except FileCause Found
  | [] =>
    match d.item? place with
    | some item => .ok (.item place item)
    | none => .error .notFound
  | part :: rest =>
    if !d.isDirectoryAt place then .error .notDirectory
    else if part = "" || part = "." then descend d followLast place rest
    else if part = ".." then descend d followLast place.dropLast rest
    else if part.utf8ByteSize > partLimit then .error .nameTooLong
    else
      let next := place ++ [part]
      match d.item? next with
      | none =>
        if rest.all (· = "") then .ok (.missing next !rest.isEmpty) else .error .notFound
      | some (.link target) =>
        if rest.isEmpty && !followLast then .ok (.item next (.link target))
        else .ok (.link place target rest)
      | some _ => descend d followLast next rest

def partsOf (name : String) : List String :=
  (Text.pieces '/' name.toList).map String.ofList

/-- The place where a name starts: the top, or a given directory. -/
def startOf (directory : Place) (name : String) : Place :=
  if name.toList.head? = some '/' then [] else directory

/-- The most links that are followed in looking up one name. -/
def linkLimit : Nat := 40

/-- Looks up parts from a place, following a number of links at most. -/
def follow (d : Disk) (followLast : Bool) (links : Nat) (place : Place) (parts : List String) :
    Except FileCause Found := do
  match ← d.descend followLast place parts with
  | .link directory target rest =>
    match links with
    | 0 => throw .linkLoop
    | links + 1 => d.follow followLast links (startOf directory target) (partsOf target ++ rest)
  | found => return found

def locate (d : Disk) (followLast : Bool) (directory : Place) (name : String) :
    Except FileCause Found :=
  if name.toList.contains '\x00' then .error .nullInName
  else if name = "" then .error .notFound
  else if name.utf8ByteSize > nameLimit then .error .nameTooLong
  else d.follow followLast linkLimit (startOf directory name) (partsOf name)

/-- Adds the name that was given to the cause of a failure. -/
def blame {α : Type} (name : String) : Except FileCause α → Except FileProblem α
  | .ok value => .ok value
  | .error cause => .error ⟨cause, name⟩

def read (d : Disk) (directory : Place) (name : String) : Except FileProblem (List UInt8) :=
  blame name do
    match ← d.locate true directory name with
    | .item _ (.file bytes) => return bytes
    | .item _ _ => throw .isDirectory
    | _ => throw .notFound

/-- Writes bytes to the file with a name, which is made if it is missing. -/
def write (d : Disk) (directory : Place) (name : String) (bytes : List UInt8) :
    Except FileProblem Disk :=
  blame name do
    match ← d.locate true directory name with
    | .item place (.file _) => return d.put place (.file bytes)
    | .item _ _ => throw .isDirectory
    | .missing place false => return d.put place (.file bytes)
    | .missing _ true => throw .isDirectory
    | .link _ _ _ => throw .linkLoop

/-- Whether a name leads to a directory. A name that is too long to be looked up is an error; any
other one that cannot be looked up leads to none. -/
def isDirectory (d : Disk) (directory : Place) (name : String) : Except FileProblem Bool :=
  match d.locate true directory name with
  | .ok (.item _ .directory) => .ok true
  | .error .nameTooLong => .error ⟨.nameTooLong, name⟩
  | _ => .ok false

/-- The names in the directory with a name; each comes with whether it is itself a directory. -/
def list (d : Disk) (directory : Place) (name : String) :
    Except FileProblem (List (String × Bool)) :=
  blame name do
    match ← d.locate true directory name with
    | .item place .directory =>
      return (d.children place).map fun (name, item) => (name, item == .directory)
    | .item _ _ => throw .notDirectory
    | _ => throw .notFound

/-- Makes the directory with a name. A link at its end is not followed. -/
def makeDirectory (d : Disk) (directory : Place) (name : String) : Except FileProblem Disk :=
  blame name do
    match ← d.locate false directory name with
    | .missing place _ => return d.put place .directory
    | .item _ _ => throw .alreadyThere
    | .link _ _ _ => throw .linkLoop

/-- Makes the directory with a name, which may be there already. -/
def provideDirectory (d : Disk) (directory : Place) (name : String) : Except FileProblem Disk := do
  match d.makeDirectory directory name with
  | .ok d => return d
  | .error problem =>
    if problem.cause = .notFound then throw problem
    else if ← d.isDirectory directory name then return d
    else throw problem

/-- Makes the directory with the given parts, the last of them first, and those above it as far as
they are missing. -/
def provideParts (d : Disk) (directory : Place) (slashes : Nat) :
    List String → Except FileProblem Disk
  | [] => d.provideDirectory directory (PathName.toText ⟨slashes, []⟩)
  | part :: above =>
    let name := PathName.toText ⟨slashes, (part :: above).reverse⟩
    match d.makeDirectory directory name with
    | .error ⟨.notFound, _⟩ => do
      let d ← d.provideParts directory slashes above
      d.provideDirectory directory name
    | _ => d.provideDirectory directory name

/-- Makes the directory with a name and those above it that are missing; one that is there already
is left as it is. -/
def makeDirectories (d : Disk) (directory : Place) (name : String) : Except FileProblem Disk :=
  let p := PathName.ofText name
  d.provideParts directory p.slashes p.parts.reverse

def textOf (place : Place) : String :=
  (PathName.mk 1 place).toText

end Disk

end FileSieve

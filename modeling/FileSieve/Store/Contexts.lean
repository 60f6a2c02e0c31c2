import FileSieve.Store.Session
import FileSieve.Text.Blank

/-!
Saved contexts: selections with a name, kept for each root. Saving under a name that the root has
already replaces its context and keeps the identifier.
-/

namespace FileSieve.Store

open Host

/-- A selection with a name. -/
structure SavedContext where
  id : Utf16
  name : Utf16
  root : Utf16
  paths : List Utf16
deriving DecidableEq, Repr

namespace SavedContext

/-- A field that holds a text that is not empty. -/
def textField? (data : Json) (name : Utf16) : Option Utf16 :=
  ((data.field? name).bind Json.string?).filter (· ≠ "")

/-- The context of a record. A record with a missing or ill-typed field has none; among its paths
only texts count. -/
def ofRecord? (data : Json) : Option SavedContext := do
  let id ← textField? data "id"
  let name ← textField? data "name"
  let root ← textField? data "rootPath"
  let paths ← (← data.field? "paths").array?
  return { id, name, root, paths := paths.filterMap Json.string? }

def toRecord (c : SavedContext) : Json :=
  .object [("id", .string c.id), ("name", .string c.name), ("rootPath", .string c.root),
    ("paths", .texts c.paths)]

end SavedContext

def contextsOf (data : Json) : List SavedContext :=
  (data.array?.getD []).filterMap SavedContext.ofRecord?

variable (places : Places)

def loadContexts : Reading (List SavedContext) := do
  return ((← read places.contexts).map contextsOf).getD []

def saveContexts (contexts : List SavedContext) : Action Unit :=
  write places.contexts (.array (contexts.map SavedContext.toRecord))

def contextsFor (root : Utf16) : Reading (List SavedContext) := do
  return (← loadContexts places).filter (·.root = root)

/-- Saves a selection under a name, and returns its context; `none` if the name is blank or the root
empty. The new context comes last, and the one it replaces is taken out by its identifier. -/
def saveContext (name root : Utf16) (paths : List String) : Reading (Option SavedContext) := do
  let name := name.trim
  if name = "" || root = "" then
    return none
  let contexts ← loadContexts places
  let paths := (sortPaths paths).map Utf16.ofString
  match contexts.find? fun c => c.name = name && c.root = root with
  | some existing =>
    let context : SavedContext := { id := existing.id, name, root, paths }
    saveContexts places (contexts.filter (·.id ≠ existing.id) ++ [context])
    return some context
  | none =>
    let context : SavedContext := { id := ← freshId, name, root, paths }
    saveContexts places (contexts ++ [context])
    return some context

/-- Deletes the contexts with an identifier, and tells whether there was one. -/
def deleteContext (id : Utf16) : Reading Bool := do
  let contexts ← loadContexts places
  let remaining := contexts.filter (·.id ≠ id)
  if remaining.length = contexts.length then
    return false
  saveContexts places remaining
  return true

end FileSieve.Store

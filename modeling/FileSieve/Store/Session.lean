import FileSieve.Selection.Basic
import FileSieve.Store.Document

/-!
The session: the root that was scanned last and the saved selection of each root. The document may
hold further fields, which are kept as they are.
-/

namespace FileSieve.Store

open Host

/-- The session as the fields of its document, in their order. -/
structure Session where
  fields : List (Utf16 × Json)
deriving Repr

namespace Session

/-- The field of the root that was scanned last. -/
def lastField : Utf16 := "lastActivePath"

def selectionsField : Utf16 := "selectionsByPath"

def blank : List (Utf16 × Json) :=
  [(lastField, .null), (selectionsField, .object [])]

/-- The session of a document. Selections that are no object are replaced by none. -/
def ofDocument (data : Option Json) : Session :=
  let fields := match data with
    | some (.object given) =>
      given.foldl (fun fields (name, value) => Json.setField name value fields) blank
    | _ => blank
  match fields.lookup selectionsField with
  | some (.object _) => ⟨fields⟩
  | _ => ⟨Json.setField selectionsField (.object []) fields⟩

def document (s : Session) : Json := .object s.fields

/-- The root that was scanned last. -/
def last? (s : Session) : Option Utf16 :=
  ((s.fields.lookup lastField).bind Json.string?).filter (· ≠ "")

/-- The session with another last root. -/
def setLast (s : Session) (root : Option Utf16) : Session :=
  ⟨Json.setField lastField ((root.map Json.string).getD .null) s.fields⟩

def selections (s : Session) : List (Utf16 × Json) :=
  match s.fields.lookup selectionsField with
  | some (.object byRoot) => byRoot
  | _ => []

/-- The saved selection of a root; only its texts count. -/
def selectionOf (s : Session) (root : Utf16) : List Utf16 :=
  match s.selections.lookup root with
  | some (.array items) => items.filterMap Json.string?
  | _ => []

/-- The session with another selection of a root. -/
def setSelection (s : Session) (root : Utf16) (paths : List String) : Session :=
  ⟨Json.setField selectionsField
    (.object (Json.setField root (.texts (paths.map Utf16.ofString)) s.selections)) s.fields⟩

end Session

/-- Paths in ascending order, repetitions included. -/
def sortPaths (paths : List String) : List String :=
  paths.mergeSort fun a b => decide (a ≤ b)

theorem sortPaths_perm (paths : List String) : (sortPaths paths).Perm paths :=
  List.mergeSort_perm paths _

theorem pairwise_sortPaths (paths : List String) : (sortPaths paths).Pairwise (· ≤ ·) := by
  have htrans (a b c : String) (hab : decide (a ≤ b) = true) (hbc : decide (b ≤ c) = true) :
      decide (a ≤ c) = true :=
    decide_eq_true (String.le_trans (of_decide_eq_true hab) (of_decide_eq_true hbc))
  have htotal (a b : String) : (decide (a ≤ b) || decide (b ≤ a)) = true := by
    simpa using String.le_total a b
  exact (List.pairwise_mergeSort htrans htotal paths).imp of_decide_eq_true

variable (places : Places)

def loadSession : Reading Session := do
  return Session.ofDocument (← read places.session)

def saveSession (s : Session) : Action Unit :=
  write places.session s.document

/-- The root that was scanned last. -/
def loadLast : Reading (Option Utf16) := do
  return (← loadSession places).last?

/-- Saves the root that was scanned last. -/
def saveLast (root : Option Utf16) : Reading Unit := do
  saveSession places ((← loadSession places).setLast root)

/-- The saved selection of a root; the empty root has none. -/
def loadSelection (root : Utf16) : Reading (List Utf16) := do
  if root = "" then
    return []
  return (← loadSession places).selectionOf root

/-- Saves the selection of a root in ascending order; that of the empty root is not saved. -/
def saveSelection (root : Utf16) (paths : List String) : Reading Unit := do
  if root = "" then
    return ()
  saveSession places ((← loadSession places).setSelection root (sortPaths paths))

end FileSieve.Store

import FileSieve.Rule.Decision

/-!
What a directory listing says, and the part of it that the rules let through. Rules see the path
from the scanned root, with a slash at its end for a directory. A scan enters open directories only,
so that it suffices to look at what lies below them (`visible_eq`).
-/

namespace FileSieve

/-- One entry of a directory listing. -/
structure Entry where
  name : String
  isDirectory : Bool
  path : String
deriving DecidableEq, Repr

/-- Why a directory has no listing. -/
inductive ListingFailure where
  /-- The directory cannot be read. It is logged and shown as empty. -/
  | unreadable (reason : String)
  /-- The listing itself went wrong, which stops the scan. -/
  | broken (reason : String)
deriving DecidableEq, Repr

/-- An entry that the rules let through, with its path from the root. -/
structure VisibleEntry where
  entry : Entry
  relative : String
deriving DecidableEq, Repr

namespace Scan

/-- The path of a name in a directory; in the root, whose path is empty, it is the name alone. -/
def joinRelative (directory name : String) : String :=
  if directory = "" then name else directory ++ "/" ++ name

/-- A path with its backslashes turned into slashes. -/
def forwardSlashes (path : List Char) : List Char :=
  path.map fun c => if c = '\\' then '/' else c

/-- The path of a file or directory from a root that is spelled with or without slashes at its end.
The root itself has the empty path, and a path that does not lie below the root only loses the
slashes at its front. -/
def relativePath (root path : String) : String :=
  let root := Text.dropEndWhile (· = '/') (forwardSlashes root.toList)
  let path := forwardSlashes path.toList
  let below := if (root ++ ['/']).isPrefixOf path then path.drop root.length else path
  String.ofList (if path = root then [] else below.dropWhile (· = '/'))

variable {α : Type} [PathRule α]

def judgedPath (entry : Entry) (relative : String) : String :=
  if entry.isDirectory then relative ++ "/" else relative

/-- The path of a directory with a slash at its end; that of the root is empty. -/
def inside (relative : String) : String :=
  if relative = "" then "" else relative ++ "/"

/-- The entries that the rules let through, of a directory that they have let through before. What
stands above that directory need not be looked at again. Entries without a name are left out. -/
def visible (rules : List α) (relative : String) (entries : List Entry) : List VisibleEntry :=
  entries.filterMap fun entry =>
    if entry.name = "" ||
        isIgnoredIn rules (inside relative).toList (judgedPath entry entry.name).toList then none
    else some ⟨entry, joinRelative relative entry.name⟩

/-- A directory is open if it is the root or the rules do not ignore it. -/
def IsOpen (rules : List α) (relative : String) : Prop :=
  relative = "" ∨ isIgnored rules (relative ++ "/") = false

theorem isIgnored_judgedPath {rules : List α} {relative : String} {entry : Entry}
    (ho : IsOpen rules relative) (hn : entry.name ≠ "") :
    isIgnored rules (judgedPath entry (joinRelative relative entry.name)) =
      isIgnoredIn rules (inside relative).toList (judgedPath entry entry.name).toList := by
  have hj : judgedPath entry (joinRelative relative entry.name) =
      String.ofList ((inside relative).toList ++ (judgedPath entry entry.name).toList) := by
    rw [← String.toList_append, String.ofList_toList]
    unfold judgedPath joinRelative inside
    split <;> split <;> simp [String.append_assoc]
  rw [hj]
  by_cases hr : relative = ""
  · have hi : (inside relative).toList = [] := by simp [inside, hr]
    rw [hi, List.nil_append, isIgnored_eq_isIgnoredIn]
  · have hd : relative.toList ≠ [] := by simpa using hr
    have hp : (judgedPath entry entry.name).toList ≠ [] := by
      unfold judgedPath
      split <;> simp [hn]
    have hi : inside relative = String.ofList (relative.toList ++ ['/']) := by
      rw [inside, if_neg hr, String.ofList_append, String.ofList_toList]
    have hs : isIgnored rules (inside relative) = false := by
      rw [inside, if_neg hr]
      exact ho.resolve_left hr
    rw [hi, String.toList_ofList, List.append_assoc, List.singleton_append,
      isIgnored_append rules hd hp, ← hi, hs, Bool.or_false]

/-- In an open directory an entry is visible if it has a name and the rules do not ignore it. -/
theorem visible_eq {rules : List α} {relative : String} (ho : IsOpen rules relative)
    (entries : List Entry) :
    visible rules relative entries = entries.filterMap fun entry =>
      if entry.name = "" ||
          isIgnored rules (judgedPath entry (joinRelative relative entry.name)) then none
      else some ⟨entry, joinRelative relative entry.name⟩ := by
  unfold visible
  congr 1
  funext entry
  by_cases hn : entry.name = ""
  · simp [hn]
  · rw [isIgnored_judgedPath ho hn]

/-- The visible directories of an open directory are open. -/
theorem isOpen_of_mem_visible {rules : List α} {relative : String} (ho : IsOpen rules relative)
    {entries : List Entry} {v : VisibleEntry} (hv : v ∈ visible rules relative entries)
    (hd : v.entry.isDirectory = true) : IsOpen rules v.relative := by
  rw [visible_eq ho, List.mem_filterMap] at hv
  obtain ⟨entry, _, h⟩ := hv
  split at h
  · cases h
  · next hi =>
    cases h
    simp only [Bool.or_eq_true, decide_eq_true_eq, not_or, Bool.not_eq_true] at hi
    rw [judgedPath, if_pos hd] at hi
    exact .inr hi.2

def directories (entries : List VisibleEntry) : List VisibleEntry :=
  entries.filter (·.entry.isDirectory)

def files (entries : List VisibleEntry) : List VisibleEntry :=
  entries.filter (!·.entry.isDirectory)

end Scan

end FileSieve

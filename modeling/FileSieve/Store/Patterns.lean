import FileSieve.Store.Document
import FileSieve.Text.Blank

/-!
The saved ignore list. It is kept trimmed, without blank patterns and without repetitions; of equal
patterns the first one stays. A pattern is kept as the document holds it, be it a string or not.
-/

namespace FileSieve.Store

open Host

/-- The patterns of a document: the string fields `pattern` of the objects in an array. -/
def patternsOf (data : Json) : List Utf16 :=
  (data.array?.getD []).filterMap fun item => (item.field? "pattern").bind Json.string?

def patternsDocument (patterns : List Utf16) : Json :=
  .array (patterns.map fun pattern => .object [("pattern", .string pattern)])

/-- The patterns that have not been seen, each once and in their order. -/
def dropRepeats (seen : List Utf16) : List Utf16 → List Utf16
  | [] => []
  | pattern :: rest =>
    if seen.contains pattern then dropRepeats seen rest
    else pattern :: dropRepeats (pattern :: seen) rest

/-- The patterns trimmed, without blank ones and repetitions. -/
def normalize (patterns : List Utf16) : List Utf16 :=
  dropRepeats [] ((patterns.map Utf16.trim).filter (· ≠ ""))

/-- The patterns of the text of an ignore file: its lines, trimmed, without blank ones and
comments. -/
def parseIgnoreText (text : String) : List String :=
  ((Text.lines text.toList).map fun line => Text.trim (String.ofList line)).filter fun line =>
    line ≠ "" && line.toList.head? ≠ some '#'

def ignoreTextOf (bytes : List UInt8) : String :=
  String.ofList (Text.unifyLineEnds (Text.ofUtf8Lossy bytes).toList)

variable (places : Places)

def loadPatterns : Reading (List Utf16) := do
  return ((← read places.patterns).map patternsOf).getD []

/-- Saves an ignore list, and returns it as it was saved. -/
def savePatterns (patterns : List Utf16) : Action (List Utf16) := do
  let saved := normalize patterns
  write places.patterns (patternsDocument saved)
  return saved

/-- Adds a pattern at the end, unless it is blank or there already. -/
def addPattern (pattern : Utf16) : Reading Bool := do
  let pattern := pattern.trim
  if pattern = "" then
    return false
  let patterns ← loadPatterns places
  if (patterns.map Utf16.trim).contains pattern then
    return false
  let _ ← savePatterns places (patterns ++ [pattern])
  return true

/-- The position in a list that an index means, if the list has it. -/
def position? (patterns : List Utf16) (index : Int) : Option Nat :=
  if 0 ≤ index && index < patterns.length then some index.toNat else none

/-- Removes the pattern at an index, and returns it. -/
def removePattern (index : Int) : Reading (Option Utf16) := do
  let patterns ← loadPatterns places
  match position? patterns index with
  | none => return none
  | some i =>
    let _ ← savePatterns places (patterns.eraseIdx i)
    return patterns[i]?

/-- Replaces the pattern at an index by one that is not blank. -/
def updatePattern (index : Int) (pattern : Utf16) : Reading Bool := do
  let pattern := pattern.trim
  let patterns ← loadPatterns places
  match position? patterns index with
  | none => return false
  | some i =>
    if pattern = "" then
      return false
    let _ ← savePatterns places (patterns.set i pattern)
    return true

/-- Adds the patterns of an ignore file at the end, and returns how many of them are new. -/
def importPatterns (name : String) : Reading (Except FileProblem Nat) := do
  match ← readFile (PathName.normalize name) with
  | .error problem => return .error problem
  | .ok bytes =>
    let imported := parseIgnoreText (ignoreTextOf bytes)
    if imported.isEmpty then
      return .ok 0
    let current ← loadPatterns places
    let saved ← savePatterns places (current ++ imported.map Utf16.ofString)
    return .ok (saved.length - (normalize current).length)

end FileSieve.Store

import FileSieve.CommandLine.Arguments
import FileSieve.Scan.Controller
import FileSieve.Store.Contexts
import FileSieve.Store.Patterns
import FileSieve.Tree.Render
import FileSieve.Tree.Search

/-!
A run of the command line: editing the saved lists, explaining the decision about one path, or
scanning a project and showing its tree, its files or the matches of a search.
-/

namespace FileSieve.CommandLine

open Host

/-- What the value of an option is needed for. -/
inductive Need where
  | text
  | path
  | index
  | count
deriving DecidableEq, Repr

def Need.name : Need → String
  | text => "text"
  | path => "path"
  | index => "index"
  | count => "count"

/-- How a run ends. -/
inductive Outcome where
  | finished
  | failed (message : String)
  | rejected (error : UsageError)
  | unusable (problem : FileProblem)
  /-- A saved text is no string, and so is neither a pattern nor a file name. -/
  | unencodable (halves : Utf16.LoneHalves)
  /-- A value is needed, but it is void. -/
  | valueless (need : Need)
  /-- A saved document is nested too deeply. -/
  | nested (part : Json.Overflow)
  | faulted (fault : Scan.Fault)
deriving DecidableEq, Repr

/-- What is said about a run that has not done what was asked for. -/
def Outcome.message? : Outcome → Option String
  | finished => none
  | failed message => some message
  | rejected error => some error.message
  | unusable problem => some problem.message
  | unencodable halves => some halves.message
  | valueless need => some ("no value to use as " ++ need.name)
  | nested part => some part.message
  | faulted fault => some fault.message

/-- The exit code: 0 if all went well, 2 for unusable arguments, and 1 for everything else. -/
def Outcome.exitCode : Outcome → Nat
  | finished => 0
  | rejected _ => 2
  | failed _ | unusable _ | unencodable _ | valueless _ | nested _ | faulted _ => 1

/-- What a run needs to know beside its arguments. -/
structure Setting where
  places : Store.Places
  /-- The log threshold that the environment names. -/
  environmentLevel : Option String := none
  /-- The directory to scan when none is given, instead of the working directory. -/
  defaultPath : Option String := none
  /-- How deep a scan may go. No file name is long enough to go deeper than this. -/
  depth : Nat := 4096

/-- A part of a run; it may end the run early. -/
abbrev Task := ExceptT Outcome Action

def fail {α : Type} (message : String) : Task α :=
  throw (.failed message)

/-- A result that may be missing because a file name could not be looked up. -/
def orUnusable {α : Type} : Except FileProblem α → Task α
  | .ok value => return value
  | .error problem => throw (.unusable problem)

/-- A result that may be missing because a saved text is no string. -/
def orUnencodable {α : Type} : Except Utf16.LoneHalves α → Task α
  | .ok value => return value
  | .error halves => throw (.unencodable halves)

def required {α : Type} (need : Need) : Value α → Task α
  | .given value => return value
  | .void => throw (.valueless need)

/-- What was read from an ignore file, or the end of the run. The message names the file as it was
given. -/
def readIgnoreFile {α : Type} (name : String) (result : Except FileProblem α) : Task α :=
  match result with
  | .ok value => return value
  | .error problem =>
    if problem.isSystem then
      fail ("Cannot read ignore file " ++ name ++ ": " ++ problem.message)
    else throw (.unusable problem)

/-- An action on the saved documents; one that is nested too deeply ends the run. -/
def onStores {α : Type} (action : Store.Reading α) : Task α :=
  action.adapt .nested

/-- Prints the saved patterns with their indices. -/
def printPatterns (patterns : List Utf16) : Action Unit :=
  ((List.range patterns.length).zip patterns).forM fun (index, pattern) =>
    print (toString index ++ "\t" ++ pattern ++ "\n")

/-- Deletes the context with an identifier; a void one is the identifier of none. -/
def deleteContext (places : Store.Places) : Value String → Store.Reading Bool
  | .given id => Store.deleteContext places id
  | .void => do
    let _ ← Store.loadContexts places
    return false

/-- Carries out the option that edits or shows a saved list, if one is given; of several the first
in this order counts. Tells whether there was one. -/
def editStores (places : Store.Places) (o : Options) : Task Bool := do
  if o.listPatterns then
    printPatterns (← onStores (Store.loadPatterns places))
    return true
  if let some value := o.removePattern then
    let index ← required .index value
    match ← onStores (Store.removePattern places index) with
    | none => fail ("No saved pattern at index " ++ toString index)
    | some removed => print ("Removed: " ++ removed ++ "\n")
    return true
  if let some (text, pattern) := o.replacePattern then
    match readCount text with
    | .error e => fail ("Invalid index " ++ Text.quote text ++ ": " ++ e.message)
    | .ok index =>
      if !(← onStores (Store.updatePattern places index pattern)) then
        fail ("Cannot replace saved pattern at index " ++ toString index)
      print ("Replaced " ++ toString index ++ ": " ++ Text.trim pattern ++ "\n")
    return true
  if let some value := o.deleteContext then
    if !(← onStores (deleteContext places value)) then
      fail ("No saved context with id " ++ value.text)
    print ("Deleted context " ++ value.text ++ "\n")
    return true
  if let some value := o.addPattern then
    let pattern ← required .text value
    let added ← onStores (Store.addPattern places pattern)
    print ((if added then "Added" else "Already present") ++ ": " ++ Text.trim pattern ++ "\n")
    return true
  if let some value := o.importGitignore then
    let name ← required .path value
    let count ← readIgnoreFile name (← onStores (Store.importPatterns places name))
    print ("Imported " ++ toString count ++ " new patterns\n")
    return true
  return false

def findRoot (setting : Setting) (o : Options) : Task String := do
  let mut fallback := setting.defaultPath
  if o.last && o.path.isNone then
    match ← onStores (Store.loadLast setting.places) with
    | none => fail "No previously scanned project"
    | some last => fallback := some (← orUnencodable last.asString)
  let name ← match o.path.filter (· ≠ ""), fallback with
    | some path, _ => pure path
    | none, some path => pure path
    | none, none => workingDirectory
  let root ← orUnusable (← resolve (PathName.normalize name))
  if !(← orUnusable (← isDirectory root)) then
    fail ("Not a directory: " ++ root)
  return root

/-- The patterns of a run: the saved ones, those of the ignore files, and those of the command
line. -/
def gatherPatterns (places : Store.Places) (o : Options) : Task (List String) := do
  let saved ← if o.noSavedPatterns then pure [] else onStores (Store.loadPatterns places)
  let read ← o.gitignore.mapM fun value => do
    let name ← required .path value
    let bytes ← readIgnoreFile name (← readFile (PathName.normalize name))
    return Store.parseIgnoreText (Store.ignoreTextOf bytes)
  orUnencodable (usablePatterns (saved ++ (read.flatten ++ o.ignore).map Utf16.ofString))

def decisionText (decision : Decision Rule) : String :=
  let verdict := if decision.ignored then "ignored" else "included"
  let byRule := match decision.rule with
    | some rule => " (last match: " ++ Text.quote (Text.trim rule.line) ++ ")"
    | none => ""
  let byAncestor := match decision.excludedAncestor with
    | some ancestor => " (excluded ancestor: " ++ ancestor ++ ")"
    | none => ""
  decision.path ++ ": " ++ verdict ++ byRule ++ byAncestor ++ "\n"

/-- Explains the decision about a path seen from the root. -/
def explainPath (root : String) (patterns : List String) (path : Value String) : Task Unit := do
  let (rules, records, _) := (RuleCache.ofCapacity RuleCache.defaultCapacity).get patterns
  records.forM fun record => log record
  let target := PathName.resolveIn root (← required .path path)
  let relative := Scan.relativePath root target
  let asDirectory ← orUnusable (← isDirectory target)
  let judged := if asDirectory && relative ≠ "" then relative ++ "/" else relative
  print (decisionText (explain rules judged))

/-- Scans the root, and returns the controller with the result. -/
def scanRoot (depth : Nat) (root : String) (patterns : List String) (workers : Value Nat) :
    Task (ScanResult × Controller) := do
  let workers ← required .count workers
  let scan := Control.scan .inOrder depth root patterns
  let answer := Control.respond (m := StateT Controller Action)
    (fun directory => Host.list directory) (fun record => Host.log record)
  let (found, controller) ←
    (Program.run (I := Control.interface) answer scan.run).run { workers := workers }
  match found with
  | .error fault => throw (.faulted fault)
  | .ok none => fail "Scan was superseded before completing."
  | .ok (some result) => return (result, controller)

/-- The first context with a name. Only among no contexts can a void name be looked for. -/
def findContext (contexts : List Store.SavedContext) (name : Value String) :
    Task (Option Store.SavedContext) := do
  if contexts.isEmpty then
    return none
  let name ← required .text name
  return contexts.find? (·.name = Text.trim name)

/-- The controller with the selection that the options ask for: a saved selection, that of a saved
context, and toggled paths, in this order. -/
def selectPaths (places : Store.Places) (o : Options) (root : String) (controller : Controller) :
    Task Controller := do
  let mut c := controller
  if o.restoreSelection then
    c := c.restore ((← onStores (Store.loadSelection places root)).filterMap Utf16.toString?)
  if let some value := o.loadContext then
    match ← findContext (← onStores (Store.contextsFor places root)) value with
    | none => fail ("No saved context named " ++ value.text)
    | some context => c := c.restore (context.paths.filterMap Utf16.toString?)
  for value in o.select do
    match c.toggle (PathName.resolveIn root (← required .path value)) with
    | .error e => fail e.message
    | .ok next => c := next
  return c

/-- Saves the selection where the options ask for it. -/
def saveSelected (places : Store.Places) (o : Options) (root : String) (s : Selection) :
    Task Unit := do
  if o.saveSelection then
    onStores (Store.saveSelection places root s.paths)
  if let some value := o.saveContext then
    match ← onStores (Store.saveContext places (← required .text value) root s.paths) with
    | none => fail "Context name must not be blank"
    | some saved =>
      log ⟨.info, "Saved context " ++ saved.name.lossy ++ " (" ++ saved.id.lossy ++ ")"⟩

/-- Prints the paths of files, one a line. -/
def printPaths (files : List FlatFile) : Action Unit :=
  files.forM fun file => print (file.path ++ "\n")

/-- Prints the tree, with check marks and a count if anything is selected. -/
def printTree (o : Options) (root : String) (c : Controller) : Task Unit := do
  let selected := c.selection.size ≠ 0
  let marker := if selected then checkMarker c.checkStates else Tree.noMarker
  let top := (o.treeRoot.filter (· ≠ "")).map (PathName.resolveIn root)
  if let some path := top then
    if (c.find? path).isNone then
      fail (SelectionError.unknownPath path).message
  print (root ++ "\n")
  print (Tree.text (Tree.subtree c.tree top) marker)
  if selected then
    let count := (c.selection.inTreeOrder c.tree).length
    print ("\n" ++ toString count ++ " files selected\n")

/-- Scans the root, keeps the selection up to date and shows what was found. -/
def showProject (setting : Setting) (o : Options) (root : String) (patterns : List String) :
    Task Unit := do
  let (result, controller) ← scanRoot setting.depth root patterns o.workers
  onStores (Store.saveLast setting.places (some result.root))
  let controller ← selectPaths setting.places o result.root controller
  saveSelected setting.places o result.root controller.selection
  if let some query := o.search then
    printPaths (Tree.search result.files (← required .text query) none)
  else if o.files then
    printPaths result.files
  else
    printTree o result.root controller

def perform (setting : Setting) (o : Options) : Task Unit := do
  logFrom (Log.effective (Log.threshold o.logLevel setting.environmentLevel))
  if ← editStores setting.places o then
    return ()
  let root ← findRoot setting o
  if o.listContexts then
    for context in ← onStores (Store.contextsFor setting.places root) do
      print (context.id ++ "\t" ++ context.name ++ "\t" ++ toString context.paths.length ++
        " files\n")
    return ()
  let patterns ← gatherPatterns setting.places o
  if let some path := o.check then
    explainPath root patterns path
  else
    showProject setting o root patterns

def helpText : String :=
  "usage: filesieve [OPTION ...] [PATH]\n\nShow a project's files filtered by ignore patterns.\n"

def run (setting : Setting) (arguments : List String) : Action Outcome := do
  match parseArguments arguments with
  | .error .help =>
    print helpText
    return .finished
  | .error (.misuse error) => return .rejected error
  | .ok o =>
    match ← (perform setting o).run with
    | .ok () => return .finished
    | .error outcome => return outcome

end FileSieve.CommandLine

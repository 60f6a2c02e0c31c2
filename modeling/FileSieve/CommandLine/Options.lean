import FileSieve.Text.Numeral
import FileSieve.Text.Quoted

/-!
The options of the command line, the values that they take, and what is wrong with an argument that
cannot be used.
-/

namespace FileSieve.CommandLine

/-- What an option is for. -/
inductive OptionKey where
  | help
  | ignore
  | gitignore
  | last
  | noSavedPatterns
  | addPattern
  | importGitignore
  | listPatterns
  | removePattern
  | replacePattern
  | listContexts
  | saveContext
  | loadContext
  | deleteContext
  | files
  | search
  | check
  | select
  | restoreSelection
  | saveSelection
  | treeRoot
  | workers
  | logLevel
deriving DecidableEq, Repr

/-- An option: its names and the number of values after it. -/
structure OptionSpec where
  key : OptionKey
  short : Option Char := none
  long : String
  arity : Nat := 0
deriving DecidableEq, Repr

/-- All options, in the order in which they are tried. -/
def allOptions : List OptionSpec :=
  [ { key := .help, short := some 'h', long := "help" },
    { key := .ignore, short := some 'i', long := "ignore", arity := 1 },
    { key := .gitignore, long := "gitignore", arity := 1 },
    { key := .last, long := "last" },
    { key := .noSavedPatterns, long := "no-saved-patterns" },
    { key := .addPattern, long := "add-pattern", arity := 1 },
    { key := .importGitignore, long := "import-gitignore", arity := 1 },
    { key := .listPatterns, long := "list-patterns" },
    { key := .removePattern, long := "remove-pattern", arity := 1 },
    { key := .replacePattern, long := "replace-pattern", arity := 2 },
    { key := .listContexts, long := "list-contexts" },
    { key := .saveContext, long := "save-context", arity := 1 },
    { key := .loadContext, long := "load-context", arity := 1 },
    { key := .deleteContext, long := "delete-context", arity := 1 },
    { key := .files, long := "files" },
    { key := .search, long := "search", arity := 1 },
    { key := .check, long := "check", arity := 1 },
    { key := .select, long := "select", arity := 1 },
    { key := .restoreSelection, long := "restore-selection" },
    { key := .saveSelection, long := "save-selection" },
    { key := .treeRoot, long := "tree-root", arity := 1 },
    { key := .workers, long := "workers", arity := 1 },
    { key := .logLevel, long := "log-level", arity := 1 } ]

def OptionSpec.name (spec : OptionSpec) : String :=
  match spec.short with
  | some c => "-" ++ String.singleton c ++ "/--" ++ spec.long
  | none => "--" ++ spec.long

/-- The value of an option. Two dashes attached to an option are dropped, which leaves it void. -/
inductive Value (α : Type) where
  | given (value : α)
  | void
deriving DecidableEq, Repr

/-- The text of a value; a void one is shown as an empty pair of brackets. -/
def Value.text : Value String → String
  | given value => value
  | void => "[]"

/-- The settings of a run. -/
structure Options where
  path : Option String := none
  ignore : List String := []
  gitignore : List (Value String) := []
  last : Bool := false
  noSavedPatterns : Bool := false
  addPattern : Option (Value String) := none
  importGitignore : Option (Value String) := none
  listPatterns : Bool := false
  removePattern : Option (Value Nat) := none
  replacePattern : Option (String × String) := none
  listContexts : Bool := false
  saveContext : Option (Value String) := none
  loadContext : Option (Value String) := none
  deleteContext : Option (Value String) := none
  files : Bool := false
  search : Option (Value String) := none
  check : Option (Value String) := none
  select : List (Value String) := []
  restoreSelection : Bool := false
  saveSelection : Bool := false
  treeRoot : Option String := none
  workers : Value Nat := .given 0
  logLevel : Option String := none
deriving DecidableEq, Repr

/-- Why a text is no count. -/
inductive CountError where
  | noInteger (text : String)
  | negative
deriving DecidableEq, Repr

def CountError.message : CountError → String
  | noInteger text => "invalid integer value: " ++ Text.quote text
  | negative => "value must be >= 0"

/-- The count written by a text: an integer that is not negative. -/
def readCount (text : String) : Except CountError Nat :=
  match Text.intNumeral? text with
  | none => .error (.noInteger text)
  | some n => if n < 0 then .error .negative else .ok n.toNat

/-- What is wrong with the arguments. -/
inductive UsageError where
  /-- The beginning of an option's name fits several options. -/
  | ambiguous (argument : String) (candidates : List String)
  | missingValues (spec : OptionSpec)
  /-- A value stands with an option that takes none. -/
  | needlessValue (spec : OptionSpec) (value : String)
  | badCount (spec : OptionSpec) (error : CountError)
  /-- Some arguments are no options, and no place is left for them. -/
  | unrecognized (arguments : List String)
deriving DecidableEq, Repr

def UsageError.message : UsageError → String
  | ambiguous argument candidates =>
    "ambiguous option: " ++ argument ++ " could match " ++ ", ".intercalate candidates
  | missingValues spec =>
    "argument " ++ spec.name ++ ": expected " ++
      (if spec.arity = 1 then "one argument" else toString spec.arity ++ " arguments")
  | needlessValue spec value =>
    "argument " ++ spec.name ++ ": ignored explicit argument " ++ Text.quote value
  | badCount spec error => "argument " ++ spec.name ++ ": " ++ error.message
  | unrecognized arguments => "unrecognized arguments: " ++ " ".intercalate arguments

/-- Why the arguments do not lead to a run. -/
inductive Refusal where
  | misuse (error : UsageError)
  | help
deriving DecidableEq, Repr

/-- The value among the values of an option that takes one. -/
def valueOf : List String → Value String
  | [] => .void
  | value :: _ => .given value

/-- The count among the values of an option that takes one. -/
def countOf (spec : OptionSpec) : List String → Except Refusal (Value Nat)
  | [] => .ok .void
  | text :: _ =>
    match readCount text with
    | .ok count => .ok (.given count)
    | .error e => .error (.misuse (.badCount spec e))

/-- The settings after an option with its values. A void log level or subtree counts as none, and a
void pattern is the pattern that it is shown as. -/
def Options.set (o : Options) (spec : OptionSpec) (values : List String) :
    Except Refusal Options :=
  let value := valueOf values
  match spec.key with
  | .help => .error .help
  | .ignore => .ok { o with ignore := o.ignore ++ [value.text] }
  | .gitignore => .ok { o with gitignore := o.gitignore ++ [value] }
  | .last => .ok { o with last := true }
  | .noSavedPatterns => .ok { o with noSavedPatterns := true }
  | .addPattern => .ok { o with addPattern := some value }
  | .importGitignore => .ok { o with importGitignore := some value }
  | .listPatterns => .ok { o with listPatterns := true }
  | .removePattern => do return { o with removePattern := some (← countOf spec values) }
  | .replacePattern => .ok { o with replacePattern := some (values.headD "", values.getD 1 "") }
  | .listContexts => .ok { o with listContexts := true }
  | .saveContext => .ok { o with saveContext := some value }
  | .loadContext => .ok { o with loadContext := some value }
  | .deleteContext => .ok { o with deleteContext := some value }
  | .files => .ok { o with files := true }
  | .search => .ok { o with search := some value }
  | .check => .ok { o with check := some value }
  | .select => .ok { o with select := o.select ++ [value] }
  | .restoreSelection => .ok { o with restoreSelection := true }
  | .saveSelection => .ok { o with saveSelection := true }
  | .treeRoot => .ok { o with treeRoot := values.head? }
  | .workers => do return { o with workers := ← countOf spec values }
  | .logLevel => .ok { o with logLevel := values.head? }

end FileSieve.CommandLine

import FileSieve.Text.Blank

/-!
Log records and the threshold below which they are dropped. The threshold is named on the command
line or, failing that, in the environment.
-/

namespace FileSieve.Log

/-- How much a record matters. -/
inductive Level where
  | debug
  | info
  | warning
deriving DecidableEq, Repr

/-- The number of a level; larger ones matter more. -/
def Level.number : Level → Nat
  | debug => 10
  | info => 20
  | warning => 30

def Level.name : Level → String
  | debug => "DEBUG"
  | info => "INFO"
  | warning => "WARNING"

/-- One message. -/
structure Record where
  level : Level
  text : String
deriving DecidableEq, Repr

def thresholdNames : List (String × Nat) :=
  [("CRITICAL", 50), ("FATAL", 50), ("ERROR", 40), ("WARNING", 30), ("WARN", 30), ("INFO", 20),
    ("DEBUG", 10), ("NOTSET", 0)]

/-- The capital of a letter, as far as the threshold names hold it: besides the small letters of
ASCII the dotless i and the long s have a plain capital. -/
def capital (c : Char) : Char :=
  if 'a' ≤ c && c ≤ 'z' then Char.ofNat (c.toNat - 32)
  else if c = 'ı' then 'I'
  else if c = 'ſ' then 'S'
  else c

/-- The threshold when none is named, and when the name is unknown. -/
def defaultThreshold : Nat := Level.warning.number

/-- The threshold named by the argument or, where that is missing or empty, by the environment. -/
def threshold (argument environment : Option String) : Nat :=
  let given (name : Option String) := name.filter (· ≠ "")
  match (given argument).or (given environment) with
  | none => defaultThreshold
  | some name =>
    (thresholdNames.lookup (String.ofList ((Text.trim name).toList.map capital))).getD
      defaultThreshold

/-- The threshold that holds when one is set: zero sets none, so the default stays. -/
def effective (threshold : Nat) : Nat :=
  if threshold = 0 then defaultThreshold else threshold

def Record.reaches (record : Record) (threshold : Nat) : Bool :=
  threshold ≤ record.level.number

/-- Where records go: the handlers that write them, and whether they are passed on beyond. -/
structure Outlet where
  threshold : Nat := defaultThreshold
  handlers : Nat := 0
  passesOn : Bool := true
deriving DecidableEq, Repr

/-- Sets up the outlet: one handler instead of those before, and nothing is passed on. -/
def Outlet.configure (_ : Outlet) (argument environment : Option String) : Outlet :=
  { threshold := Log.threshold argument environment, handlers := 1, passesOn := false }

end FileSieve.Log

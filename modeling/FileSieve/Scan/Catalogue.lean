import FileSieve.Scan.DepthFirst
import FileSieve.Scan.Levels

/-!
Directories held in memory: a finite map from paths to listings, some of which fail. A scan that
runs over a catalogue leaves a transcript of the directories it listed and of what it logged.
-/

namespace FileSieve

/-- Listings by directory. A directory that is not in the map has no entries. -/
structure Catalogue where
  directories : List (String × List Entry) := []
  failures : List (String × ListingFailure) := []

namespace Catalogue

def list (c : Catalogue) (directory : String) : Except ListingFailure (List Entry) :=
  match c.failures.lookup directory with
  | some failure => .error failure
  | none => .ok ((c.directories.lookup directory).getD [])

/-- Adds directories; a directory that is already there gets the new listing. -/
def extend (c : Catalogue) (directories : List (String × List Entry)) : Catalogue :=
  { c with directories := directories ++ c.directories }

end Catalogue

/-- What has happened while a scan ran. -/
structure Transcript where
  /-- The directories that were listed, in order. -/
  calls : List String := []
  /-- The records that were logged, in order. -/
  log : List Log.Record := []
  /-- How often the scan has asked whether it was called off. -/
  polls : Nat := 0

namespace Scan

/-- Answers the requests of a scan from listings that stay the same. The scan is called off from the
poll on that comes after the given number of polls. -/
def answerFrom (list : String → Except ListingFailure (List Entry)) (cancelAfter : Option Nat) :
    (q : Request) → StateM Transcript (Answer q)
  | .list directory => do
    modify fun t => { t with calls := t.calls ++ [directory] }
    return list directory
  | .log record => modify fun t => { t with log := t.log ++ [record] }
  | .cancelled => do
    let t ← get
    set { t with polls := t.polls + 1 }
    return cancelAfter.any (· ≤ t.polls)

/-- Runs a scan over listings that stay the same. -/
def observe {α : Type} (list : String → Except ListingFailure (List Entry))
    (cancelAfter : Option Nat) (scan : Scanning α) : Except Fault α × Transcript :=
  (Program.run (I := interface) (answerFrom list cancelAfter) scan.run).run {}

def runOver {α : Type} (c : Catalogue) (cancelAfter : Option Nat) (scan : Scanning α) :
    Except Fault α × Transcript :=
  observe c.list cancelAfter scan

end Scan

end FileSieve

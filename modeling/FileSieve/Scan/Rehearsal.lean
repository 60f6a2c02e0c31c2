import FileSieve.Scan.Catalogue
import FileSieve.Scan.Controller

/-!
Controlled scans over a catalogue. A listing can be made to open another scan first, which
supersedes the one that runs.
-/

namespace FileSieve

/-- What surrounds a controller that works on a catalogue. -/
structure Surroundings where
  catalogue : Catalogue
  depth : Nat
  /-- The directory whose next listing opens another scan first. -/
  supersedeOn : Option String := none
  /-- The records that were logged, in order. -/
  log : List Log.Record := []

abbrev Rehearsal := StateT Controller (StateM Surroundings)

namespace Rehearsal

/-- Lists a directory, after another scan has been opened if that was asked for. -/
def list (directory : String) : Rehearsal (Except ListingFailure (List Entry)) := do
  let s ← getThe Surroundings
  if s.supersedeOn = some directory then
    set { s with supersedeOn := none }
    modifyThe Controller fun c => c.start.2
  return s.catalogue.list directory

def log (record : Log.Record) : Rehearsal Unit :=
  modifyThe Surroundings fun s => { s with log := s.log ++ [record] }

def perform {α : Type} (scan : Control.Controlled α) : Rehearsal (Except Scan.Fault α) :=
  Program.run (I := Control.interface) (Control.respond list log) scan.run

/-- Builds a tree as part of a scan with a given number, or of none. -/
def buildTree (root : String) (patterns : List String) (generation : Option Int) :
    Rehearsal (Except Scan.Fault (Option ScanResult × List Rule)) := do
  let s ← getThe Surroundings
  perform (Control.buildTree .inOrder s.depth root patterns generation)

def scan (root : String) (patterns : List String) :
    Rehearsal (Except Scan.Fault (Option ScanResult)) := do
  let s ← getThe Surroundings
  perform (Control.scan .inOrder s.depth root patterns)

end Rehearsal

end FileSieve

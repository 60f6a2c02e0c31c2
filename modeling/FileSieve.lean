import FileSieve.Host.Model
import FileSieve.Main
import FileSieve.Scan.Rehearsal
import FileSieve.Proofs.CommandLine.Checking
import FileSieve.Proofs.CommandLine.Gathering
import FileSieve.Proofs.CommandLine.SavedLists
import FileSieve.Proofs.CommandLine.Scanning
import FileSieve.Proofs.Files.Listing
import FileSieve.Proofs.Files.Rewriting
import FileSieve.Proofs.Host.Running
import FileSieve.Proofs.Json.Documents
import FileSieve.Proofs.Pattern.Matching
import FileSieve.Proofs.Pattern.Segments
import FileSieve.Proofs.Pattern.Translation
import FileSieve.Proofs.Program.Evaluation
import FileSieve.Proofs.Program.Trace
import FileSieve.Proofs.Regex.Sequence
import FileSieve.Proofs.Rule.Acceptance
import FileSieve.Proofs.Rule.Usable
import FileSieve.Proofs.Scan.Agreement
import FileSieve.Proofs.Scan.Exclusion
import FileSieve.Proofs.Scan.Faults
import FileSieve.Proofs.Scan.Filtering
import FileSieve.Proofs.Scan.Interleaving
import FileSieve.Proofs.Scan.Runs
import FileSieve.Proofs.Scan.Steady
import FileSieve.Proofs.Scan.Superseding
import FileSieve.Proofs.Scan.Visibility
import FileSieve.Proofs.Selection.ActivePath
import FileSieve.Proofs.Store.Documents
import FileSieve.Proofs.Store.Importing
import FileSieve.Proofs.Store.Normalization
import FileSieve.Proofs.Rule.Keys
import FileSieve.Proofs.Rule.Recency
import FileSieve.Proofs.Store.PatternList
import FileSieve.Proofs.Store.ContextMap
import FileSieve.Proofs.Json.Fields
import FileSieve.Proofs.Store.SessionRegister
import FileSieve.Proofs.Decimal.Rounding
import FileSieve.Proofs.Decimal.Shortest
import FileSieve.Proofs.Json.Numbers
import FileSieve.Proofs.Pattern.SegmentWise
import FileSieve.Proofs.Rule.Depth
import FileSieve.Proofs.Rule.LineFeeds
import FileSieve.Proofs.Files.Frames
import FileSieve.Proofs.Store.Separation
import FileSieve.Proofs.CommandLine.Showing
import FileSieve.Proofs.CommandLine.Failing
import FileSieve.Proofs.CommandLine.Outcomes
import FileSieve.Proofs.Store.ContextNames
import FileSieve.Proofs.CommandLine.Restoring
import FileSieve.Proofs.Rule.LastMatch
import FileSieve.Proofs.Rule.Ancestors
import FileSieve.Proofs.Rule.Beneath
import FileSieve.Proofs.Rule.Rearranging
import FileSieve.Proofs.Scan.Insertion
import FileSieve.Proofs.Scan.Directories
import FileSieve.Proofs.Scan.Unreadable
import FileSieve.Proofs.Scan.Shape
import FileSieve.Proofs.Scan.Cancelling
import FileSieve.Proofs.Selection.CheckStates
import FileSieve.Proofs.Selection.Toggling
import FileSieve.Proofs.Selection.Retoggling
import FileSieve.Proofs.Selection.Subtrees
import FileSieve.Proofs.Tree.Rendering
import FileSieve.Proofs.Tree.Searching
import FileSieve.Proofs.Store.IgnoreText
import FileSieve.Proofs.Scan.RelativePaths
import FileSieve.Proofs.Scan.Ending
import FileSieve.Proofs.Rule.Compiling
import FileSieve.Proofs.Store.Joining

import Marginalia.Command
import Marginalia.CommandLine.Grammar
import Marginalia.CommandLine.Invocation
import Marginalia.CommandLine.Number
import Marginalia.CommandLine.UsageError
import Marginalia.Comment
import Marginalia.CommentRule
import Marginalia.Failure
import Marginalia.FileType
import Marginalia.Files
import Marginalia.Insertion
import Marginalia.LineReader
import Marginalia.Main
import Marginalia.Path
import Marginalia.Pattern
import Marginalia.Program
import Marginalia.Proofs.SourceText.Breaks
import Marginalia.Proofs.Text.Cut
import Marginalia.Report
import Marginalia.Scan
import Marginalia.Search
import Marginalia.Session
import Marginalia.SourceText
import Marginalia.Summary
import Marginalia.Table
import Marginalia.Text.Blank
import Marginalia.Text.Hidden
import Marginalia.Text.Ink
import Marginalia.Text.Layout
import Marginalia.Text.Quoted
import Marginalia.Text.Steering
import Marginalia.Text.Utf8
import Marginalia.Tree.Disk
import Marginalia.Tree.Node
import Marginalia.Tree.Walk
import Marginalia.Proofs.SourceText.RoundTrip
import Marginalia.Proofs.SourceText.Splicing
import Marginalia.Proofs.Session.Rereading
import Marginalia.Proofs.Text.Decoding
import Marginalia.Proofs.LineReader.Numbering
import Marginalia.Proofs.Tree.Places
import Marginalia.Proofs.LineReader.Annotating
import Marginalia.Proofs.Path.Below
import Marginalia.Proofs.Scan.Reach
import Marginalia.Proofs.Scan.Outcome
import Marginalia.Proofs.Scan.Found
import Marginalia.Proofs.Tree.Reordered
import Marginalia.Proofs.Scan.Counted
import Marginalia.Proofs.LineReader.Arrival
import Marginalia.Proofs.Session.Reachable
import Marginalia.Proofs.LineReader.Asking
import Marginalia.Proofs.Tree.Entries
import Marginalia.Proofs.Tree.Slots
import Marginalia.Proofs.Tree.Saving
import Marginalia.Proofs.Program.OnDisk
import Marginalia.Proofs.Program.Effects
import Marginalia.Proofs.Program.DryRun
import Marginalia.Proofs.CommandLine.Switching
import Marginalia.Proofs.Lines.Account
import Marginalia.Proofs.Search.Occurrences
import Marginalia.Proofs.Report.Classes
import Marginalia.Proofs.Search.Findings
import Marginalia.Proofs.Insertion.Shifting
import Marginalia.Proofs.Text.Words
import Marginalia.Proofs.Comment.Frames
import Marginalia.Proofs.Insertion.Noted
import Marginalia.Proofs.Insertion.Spilling
import Marginalia.Proofs.Comment.Enclosed
import Marginalia.Proofs.Insertion.Batches
import Marginalia.Proofs.Lines.Alike
import Marginalia.Proofs.Search.Marked
import Marginalia.Proofs.Path.Beside
import Marginalia.Proofs.Tree.Scratch
import Marginalia.Proofs.Tree.Replacing
import Marginalia.Proofs.Tree.Parts
import Marginalia.Proofs.Scan.Ignored
import Marginalia.Proofs.Scan.Placed
import Marginalia.Proofs.Report.Printed
import Marginalia.Proofs.Table.Layout
import Marginalia.Proofs.Table.Sums
import Marginalia.Proofs.FileType.Known

import DocDelta.Bson.Reader
import DocDelta.Main
import DocDelta.Proofs.Patch.Accumulation
import DocDelta.Patch.Text
import DocDelta.Settings.Update
import DocDelta.Proofs.Value.Answers
import DocDelta.Proofs.Value.Guarded
import DocDelta.Proofs.Diff.Run
import DocDelta.Proofs.Diff.Termination
import DocDelta.Proofs.Diff.Changes
import DocDelta.Proofs.Diff.Trace
import DocDelta.Proofs.Diff.Paths
import DocDelta.Proofs.Diff.Naming
import DocDelta.Proofs.Diff.Ownership
import DocDelta.Proofs.Patch.Entries
import DocDelta.Proofs.Patch.Checked
import DocDelta.Proofs.Diff.Recorded
import DocDelta.Proofs.Diff.Whole
import DocDelta.Proofs.Diff.ConflictFree
import DocDelta.Proofs.Diff.Lossless
import DocDelta.Proofs.Diff.Ignoring
import DocDelta.Proofs.Diff.Routes
import DocDelta.Proofs.Diff.Tracking
import DocDelta.Proofs.Diff.Sharing
import DocDelta.Proofs.Value.Zeros
import DocDelta.Proofs.Diff.Outcome
import DocDelta.Proofs.Diff.Duality
import DocDelta.Proofs.Value.Acyclic
import DocDelta.Proofs.Document.Written
import DocDelta.Proofs.Value.Scalars
import DocDelta.Proofs.Document.Matched
import DocDelta.Proofs.Document.Agreement
import DocDelta.Proofs.Document.Edits
import DocDelta.Proofs.Document.Shown
import DocDelta.Proofs.Diff.Repairs
import DocDelta.Proofs.Diff.Soundness
import DocDelta.Proofs.Patch.Application
import DocDelta.Proofs.Diff.Parallel
import DocDelta.Proofs.Diff.Findings
import DocDelta.Proofs.Diff.Positions
import DocDelta.Proofs.Diff.Located
import DocDelta.Proofs.Diff.ZeroPolicies
import DocDelta.Proofs.Diff.Placeholders
import DocDelta.Proofs.Diff.Alike
import DocDelta.Proofs.Document.Likeness
import DocDelta.Proofs.Diff.Taken
import DocDelta.Proofs.Diff.Twinned
import DocDelta.Proofs.Diff.IgnoredValues
import DocDelta.Proofs.Diff.PrivateState
import DocDelta.Proofs.Value.Bisimilarity
import DocDelta.Proofs.Value.Equivalence
import DocDelta.Proofs.Diff.Merging
import DocDelta.Proofs.Diff.Refusals
import DocDelta.Proofs.Json.Roundtrip
import DocDelta.Proofs.Diff.Rebasing
import DocDelta.Proofs.Diff.Differing
import DocDelta.Proofs.Diff.Unchanged
import DocDelta.Proofs.Diff.Tally
import DocDelta.Proofs.Value.Ordinary
import DocDelta.Proofs.Diff.Reversal
import DocDelta.Proofs.Value.Rearranged
import DocDelta.Proofs.Diff.Agreeing
import DocDelta.Proofs.Value.Reordered
import DocDelta.Proofs.Diff.Reconciled
import DocDelta.Proofs.Diff.Reordering
import DocDelta.Proofs.Diff.EntryOrder
import DocDelta.Proofs.Report.Pushed
import DocDelta.Proofs.Patch.Loaded
import DocDelta.Proofs.Value.Sorted
import DocDelta.Proofs.Json.Read
import DocDelta.Proofs.Report.Shown
import DocDelta.Proofs.Diff.Permuted
import DocDelta.Proofs.Diff.Aftermath
import DocDelta.Proofs.Value.EqualZeros
import DocDelta.Proofs.Settings.Layers
import DocDelta.Proofs.Number.Words
import DocDelta.Proofs.Calendar.Instants
import DocDelta.Proofs.Bson.Bytes
import DocDelta.Proofs.Bson.Readback
import DocDelta.Proofs.Bson.Stored
import DocDelta.Proofs.Diff.Emptiness
import DocDelta.Proofs.Command.LogLevel
import DocDelta.Proofs.Json.Writable
import DocDelta.Proofs.Json.Interned
import DocDelta.Proofs.Diff.Encoding
import DocDelta.Proofs.Folder.Writing
import DocDelta.Proofs.Text.Splitting
import DocDelta.Proofs.Command.Output
import DocDelta.Proofs.Text.Quoting
import DocDelta.Proofs.Value.Literals
import DocDelta.Proofs.Report.Breaking
import DocDelta.Proofs.Report.Lines
import DocDelta.Proofs.Settings.InPlace

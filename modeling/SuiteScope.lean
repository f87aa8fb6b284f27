import SuiteScope.Main
import SuiteScope.Proofs.Keys
import SuiteScope.Proofs.Text.Utf8
import SuiteScope.Proofs.FirstOccurrence
import SuiteScope.Proofs.Duration
import SuiteScope.Proofs.Command.Words
import SuiteScope.Proofs.Command.Wordless
import SuiteScope.Proofs.Files.Spelling
import SuiteScope.Proofs.Files.Bytes
import SuiteScope.Proofs.Files.Location
import SuiteScope.Proofs.Files.Identity
import SuiteScope.Proofs.Files.Descent
import SuiteScope.Proofs.Files.Alike
import SuiteScope.Proofs.Files.Update
import SuiteScope.Proofs.Files.Order
import SuiteScope.Proofs.Files.Discovery
import SuiteScope.Proofs.Files.Composition
import SuiteScope.Proofs.Files.Cancellation
import SuiteScope.Proofs.Dependency.Kind
import SuiteScope.Proofs.Dependency.Candidates
import SuiteScope.Proofs.Dependency.Aliased
import SuiteScope.Proofs.Toml.Distinct
import SuiteScope.Proofs.Toml.Merge
import SuiteScope.Proofs.Toml.Paths
import SuiteScope.Proofs.Settings.Members
import SuiteScope.Proofs.Settings.Readable
import SuiteScope.Proofs.Settings.Layers
import SuiteScope.Proofs.Mining.Coherence
import SuiteScope.Proofs.Mining.FirstAppearance
import SuiteScope.Proofs.Mining.Merge
import SuiteScope.Proofs.Mining.Union
import SuiteScope.Proofs.Mining.Run
import SuiteScope.Proofs.Mining.Counters
import SuiteScope.Proofs.Mining.Session
import SuiteScope.Proofs.Shell.Pattern
import SuiteScope.Proofs.Shell.Field
import SuiteScope.Proofs.Shell.World
import SuiteScope.Proofs.Capture
import SuiteScope.Proofs.Text.Offset
import SuiteScope.Proofs.Text.Search
import SuiteScope.Proofs.Text.Found
import SuiteScope.Proofs.Source.Skip
import SuiteScope.Proofs.Source.Settled
import SuiteScope.Proofs.Source.Segments
import SuiteScope.Proofs.Source.Block
import SuiteScope.Proofs.Source.Label
import SuiteScope.Proofs.Source.Sections
import SuiteScope.Proofs.Source.Forest
import SuiteScope.Proofs.Source.Reading
import SuiteScope.Proofs.Source.Blanked
import SuiteScope.Proofs.Source.Cursor
import SuiteScope.Proofs.Source.Ranges
import SuiteScope.Proofs.Source.Balance
import SuiteScope.Proofs.Source.Head
import SuiteScope.Proofs.Source.Extent
import SuiteScope.Proofs.Source.Progress
import SuiteScope.Proofs.Source.Origin
import SuiteScope.Proofs.Source.Cases
import SuiteScope.Proofs.Source.Statements
import SuiteScope.Proofs.Source.ImportList
import SuiteScope.Proofs.Source.Overrun
import SuiteScope.Proofs.Source.Comments
import SuiteScope.Proofs.Source.LabelEnd
import SuiteScope.Proofs.Source.Agreement
import SuiteScope.Proofs.Source.Inert
import SuiteScope.Proofs.Text.Digit
import SuiteScope.Proofs.Transcript.Block
import SuiteScope.Proofs.Transcript.Cuts
import SuiteScope.Proofs.Transcript.Failure
import SuiteScope.Proofs.Transcript.Summary
import SuiteScope.Proofs.Transcript.Stats
import SuiteScope.Proofs.Transcript.Written
import SuiteScope.Proofs.Transcript.RoundTrip
import SuiteScope.Proofs.Transcript.Verdict
import SuiteScope.Proofs.Transcript.Colour
import SuiteScope.Proofs.Transcript.Lines

import MacroAsm.Source.Location
import MacroAsm.Source.Lines
import MacroAsm.Text.Capitals
import MacroAsm.Text.Printable
import MacroAsm.Text.Quoted
import MacroAsm.Opcode
import MacroAsm.Word
import MacroAsm.Token
import MacroAsm.Token.Scan
import MacroAsm.Text.Similar
import MacroAsm.Text.Plain
import MacroAsm.Diagnostic
import MacroAsm.Diagnostic.Ledger
import MacroAsm.Event
import MacroAsm.Item
import MacroAsm.Item.Fault
import MacroAsm.Item.Reader
import MacroAsm.Program
import MacroAsm.Expansion.Bindings
import MacroAsm.Expansion.Table
import MacroAsm.Expansion.Limits
import MacroAsm.Expansion.Run
import MacroAsm.Expansion.Expander
import MacroAsm.Listing
import MacroAsm.Text.Utf8
import MacroAsm.Text.Newline
import MacroAsm.Text.Numeral
import MacroAsm.Store.Path
import MacroAsm.Store
import MacroAsm.Failure
import MacroAsm.Session
import MacroAsm.Command.Exit
import MacroAsm.Command.Switch
import MacroAsm.Command.Usage
import MacroAsm.Command.Arguments
import MacroAsm.Command.Config
import MacroAsm.Command.Run
import MacroAsm.Main
import MacroAsm.Proofs.Evaluation
import MacroAsm.Proofs.Unfolding
import MacroAsm.Proofs.Passes
import MacroAsm.Proofs.Outcome
import MacroAsm.Proofs.CallGraph
import MacroAsm.Proofs.Workload
import MacroAsm.Proofs.Grammar
import MacroAsm.Proofs.Reading
import MacroAsm.Proofs.Scanning
import MacroAsm.Proofs.WellFormed
import MacroAsm.Proofs.RoundTrip
import MacroAsm.Proofs.Conversion
import MacroAsm.Proofs.Reports
import MacroAsm.Proofs.Sites
import MacroAsm.Proofs.Strictness
import MacroAsm.Proofs.History
import MacroAsm.Proofs.Places
import MacroAsm.Proofs.Slices
import MacroAsm.Proofs.ForeignCharacters
import MacroAsm.Proofs.Quoting
import MacroAsm.Proofs.PlaceMaps
import MacroAsm.Proofs.Relocation
import MacroAsm.Proofs.LineEnds
import MacroAsm.Proofs.Lockstep
import MacroAsm.Proofs.OtherPlaces
import MacroAsm.Proofs.Displacement
import MacroAsm.Proofs.Unplaced
import MacroAsm.Proofs.ReachedMacros
import MacroAsm.Proofs.ParameterNames
import MacroAsm.Proofs.RepeatedRuns
import MacroAsm.Proofs.FileInput
import MacroAsm.Proofs.Concatenation
import MacroAsm.Proofs.PartReaders
import MacroAsm.Proofs.FirstFailure
import MacroAsm.Proofs.Storage
import MacroAsm.Proofs.Nesting
import MacroAsm.Proofs.Answers
import MacroAsm.Proofs.Verbosity
import MacroAsm.Proofs.Delivery
import MacroAsm.Proofs.NormalPaths
import MacroAsm.Proofs.ExitCodes
import MacroAsm.Proofs.Braces
import MacroAsm.Proofs.Cursor
import MacroAsm.Proofs.EndOfInput

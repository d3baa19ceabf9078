import HexConfig.Main
import HexConfig.Proofs.Conversion.Insertion
import HexConfig.Proofs.Conversion.Substitution
import HexConfig.Proofs.Conversion.SyntaxFaults
import HexConfig.Proofs.Conversion.Unambiguous
import HexConfig.Proofs.Reader.History
import HexConfig.Proofs.Conversion.Image
import HexConfig.Proofs.Token.Tiling
import HexConfig.Proofs.Token.Laid
import HexConfig.Proofs.Source.Rendering
import HexConfig.Proofs.Reader.Steps
import HexConfig.Proofs.Reader.Trees
import HexConfig.Proofs.Conversion.RoundTrip
import HexConfig.Proofs.Source.Places
import HexConfig.Proofs.Reader.Accounts
import HexConfig.Proofs.Reader.Faults
import HexConfig.Proofs.Conversion.FirstFault
import HexConfig.Proofs.Conversion.Layout
import HexConfig.Proofs.Conversion.Concatenation
import HexConfig.Proofs.Reader.Ending
import HexConfig.Proofs.Reader.Rest
import HexConfig.Proofs.Reader.Published
import HexConfig.Proofs.Source.Measure
import HexConfig.Proofs.Reader.Exact
import HexConfig.Proofs.FileTree.Path
import HexConfig.Proofs.FileTree
import HexConfig.Proofs.FileTree.Changes
import HexConfig.Proofs.Command.Replace
import HexConfig.Proofs.Command
import HexConfig.Proofs.Command.Untouched
import HexConfig.Proofs.Json.Compact
import HexConfig.Proofs.Json.Indentation
import HexConfig.Proofs.Conversion.Strict
import HexConfig.Proofs.Conversion.Revision
import HexConfig.Proofs.Conversion.Trace
import HexConfig.Proofs.Conversion.Losses
import HexConfig.Proofs.Source.Balance
import HexConfig.Proofs.Reader.Counters
import HexConfig.Proofs.Value.Gaps
import HexConfig.Proofs.Reader.Change
import HexConfig.Proofs.Reader.Gaps
import HexConfig.Proofs.Token.Exchange
import HexConfig.Proofs.Conversion.Numerals

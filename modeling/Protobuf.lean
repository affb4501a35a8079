import Protobuf.Main
import Protobuf.Record.Access
import Protobuf.Record.Encode
import Protobuf.Record.Merge
import Protobuf.Proofs.Record.RoundTrip
import Protobuf.Proofs.Record.Stream
import Protobuf.Proofs.Record.Reading
import Protobuf.Proofs.Record.Stable
import Protobuf.Proofs.Record.Chunks
import Protobuf.Proofs.Record.Missing
import Protobuf.Proofs.Schema.FieldOrder
import Protobuf.Proofs.Record.Rearranged
import Protobuf.Proofs.Record.FieldOrder
import Protobuf.Proofs.Schema.Boxing
import Protobuf.Proofs.Compile.LoadOrder
import Protobuf.Proofs.Compile.ImportTraversal
import Protobuf.Proofs.Compile.Shadowing
import Protobuf.Proofs.Schema.TypeNames
import Protobuf.Proofs.Schema.Arena
import Protobuf.Proofs.Compile.Artifacts
import Protobuf.Proofs.Source.ReadingLaws
import Protobuf.Proofs.Source.AcceptanceLaws
import Protobuf.Proofs.Source.Phrases
import Protobuf.Proofs.Source.Options
import Protobuf.Proofs.Source.Enums
import Protobuf.Proofs.Source.Messages
import Protobuf.Proofs.Source.Files
import Protobuf.Proofs.Source.Exactness
import Protobuf.Proofs.Source.Conformance
import Protobuf.Proofs.Schema.Generation
import Protobuf.Proofs.Schema.Unnumbered
import Protobuf.Proofs.Schema.Visible
import Protobuf.Proofs.Schema.Clashes
import Protobuf.Proofs.Schema.Renumbering
import Protobuf.Proofs.Schema.FileOrder
import Protobuf.Proofs.Source.Recovery
import Protobuf.Proofs.Source.LexicalFaults
import Protobuf.Proofs.Source.PlainNames
import Protobuf.Proofs.Schema.Duplicates
import Protobuf.Proofs.Schema.Appending
import Protobuf.Proofs.Schema.Capture
import Protobuf.Proofs.Code.Collisions
import Protobuf.Proofs.Schema.Kept
import Protobuf.Proofs.Schema.ReservedNumbers
import Protobuf.Proofs.Schema.Components
import Protobuf.Proofs.Schema.Reporting
import Protobuf.Proofs.Source.Progress
import Protobuf.Proofs.Source.Braces
import Protobuf.Proofs.Source.Lexemes
import Protobuf.Proofs.Source.Partition
import Protobuf.Proofs.Source.Rescan
import Protobuf.Proofs.Code.LegalNames
import Protobuf.Proofs.Source.Placing
import Protobuf.Proofs.Source.Positions
import Protobuf.Proofs.Wire.Forms
import Protobuf.Proofs.Code.RelativePaths
import Protobuf.Proofs.Code.Variants
import Protobuf.Proofs.Code.EnumTables
import Protobuf.Proofs.Code.EnumConversions
import Protobuf.Proofs.Code.WireCalls
import Protobuf.Proofs.Code.WireMethods
import Protobuf.Proofs.Code.WireProgram
import Protobuf.Proofs.Code.WireWriting
import Protobuf.Proofs.Code.WireReading
import Protobuf.Proofs.Code.ByteStrings
import Protobuf.Proofs.Source.LineColumns

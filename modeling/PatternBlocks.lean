import PatternBlocks.Cursor.Session
import PatternBlocks.Grammar.Pattern
import PatternBlocks.Block.Basic
import PatternBlocks.Flags
import PatternBlocks.Block.Equality
import PatternBlocks.Block.Render
import PatternBlocks.Block.Build
import PatternBlocks.Block.Edit
import PatternBlocks.Block.OfRegex
import PatternBlocks.Conversion
import PatternBlocks.Json.Writer
import PatternBlocks.Json.Token
import PatternBlocks.Json.Reader
import PatternBlocks.Block.Json
import PatternBlocks.Editor
import PatternBlocks.Proofs.Captures
import PatternBlocks.Proofs.Writable
import PatternBlocks.Proofs.Reread
import PatternBlocks.Proofs.BracketContext
import PatternBlocks.Proofs.ClassText
import PatternBlocks.Proofs.Repeats
import PatternBlocks.Proofs.AtomText
import PatternBlocks.Proofs.Runs
import PatternBlocks.Proofs.GroupText
import PatternBlocks.Proofs.ReadBack
import PatternBlocks.Proofs.HandBuilt
import PatternBlocks.Proofs.CaptureNames
import PatternBlocks.Proofs.Settled
import PatternBlocks.Proofs.Nesting
import PatternBlocks.Proofs.RoundTrip
import PatternBlocks.Proofs.Shape
import PatternBlocks.Proofs.References
import PatternBlocks.Proofs.Erasure
import PatternBlocks.Proofs.NormalForm
import PatternBlocks.Proofs.Placement
import PatternBlocks.Proofs.Leniency
import PatternBlocks.Proofs.Faults
import PatternBlocks.Proofs.Wrapping
import PatternBlocks.Proofs.BlockJson
import PatternBlocks.Proofs.Replacement
import PatternBlocks.Proofs.NumberEnd
import PatternBlocks.Proofs.Quoting
import PatternBlocks.Proofs.Addresses
import PatternBlocks.Proofs.Construction
import PatternBlocks.Proofs.Decomposition
import PatternBlocks.Proofs.ClassItems
import PatternBlocks.Proofs.Exactness
import PatternBlocks.Proofs.QuantifierText
import PatternBlocks.Proofs.Properties
import PatternBlocks.Proofs.Recovery
import PatternBlocks.Proofs.Literalness
import PatternBlocks.Proofs.Justification
import PatternBlocks.Proofs.Enrolment
import PatternBlocks.Proofs.Sessions
import PatternBlocks.Proofs.Progress
import PatternBlocks.Proofs.Delimiting
import PatternBlocks.Proofs.PlaceValues

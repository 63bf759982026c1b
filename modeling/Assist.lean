import Assist.Completion.ObjectLiteral
import Assist.Extraction.Catalog
import Assist.Extraction.Edit
import Assist.Proofs.Extraction.ComponentBody
import Assist.Proofs.Extraction.Renaming
import Assist.Settings.LogFormat
import Assist.Settings.Reader
import Assist.Types.Shape
import Assist.Types.Table
import Assist.Wire.Completion
import Assist.Wire.Extraction
import Assist.Proofs.Extraction.Relocation
import Assist.Proofs.Completion.OnePass
import Assist.Proofs.Signature.Closed
import Assist.Proofs.Signature.TopLevel
import Assist.Proofs.Signature.Reading
import Assist.Proofs.Signature.Header
import Assist.Proofs.Signature.Printing
import Assist.Proofs.Signature.RoundTrip
import Assist.Proofs.Signature.ReturnType
import Assist.Proofs.Types.Reachable
import Assist.Proofs.Types.UnionShape
import Assist.Proofs.Types.NestedUnion
import Assist.Proofs.Completion.Placing
import Assist.Proofs.Completion.Identity
import Assist.Proofs.Completion.PropertyOrder
import Assist.Proofs.Types.UnionDepth
import Assist.Proofs.Extraction.Origin
import Assist.Proofs.Wire.RoundTrip
import Assist.Proofs.Offsets.NoFault
import Assist.Proofs.Signature.ClosingBracket
import Assist.Proofs.Text.Search
import Assist.Proofs.Extraction.ArrowText
import Assist.Proofs.Extraction.InsertionPoint
import Assist.Proofs.Extraction.Locating
import Assist.Proofs.Extraction.Precedence
import Assist.Proofs.Text.Indent
import Assist.Proofs.Extraction.LocalArrow
import Assist.Proofs.Extraction.Attributes
import Assist.Proofs.Completion.MethodMoves
import Assist.Proofs.Extraction.Offering
import Assist.Proofs.Extraction.SingleCall
import Assist.Proofs.Extraction.WholeElement
import Assist.Proofs.Syntax.Laminar
import Assist.Proofs.Syntax.SearchPath
import Assist.Proofs.Syntax.Building
import Assist.Proofs.Changes.Reordering
import Assist.Proofs.Text.Trivia
import Assist.Proofs.Text.Reindent
import Assist.Proofs.Extraction.FreshName
import Assist.Proofs.Completion.FileScans
import Assist.Proofs.Signature.Splitting
import Assist.Proofs.Extraction.Atomicity

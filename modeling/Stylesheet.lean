import Stylesheet.Json.Reader
import Stylesheet.Concrete.Fault
import Stylesheet.Node.Numbering
import Stylesheet.Concrete.Items
import Stylesheet.File.Reading
import Stylesheet.Options.Settings
import Stylesheet.Project.Loader
import Stylesheet.Language
import Stylesheet.Session.Walk
import Stylesheet.Session.Question
import Stylesheet.Session.Substitution
import Stylesheet.Matching
import Stylesheet.Proofs.Ancestry
import Stylesheet.Proofs.Bracketing
import Stylesheet.Proofs.FirstVisit
import Stylesheet.Proofs.Closest
import Stylesheet.Proofs.Splice
import Stylesheet.Proofs.Built
import Stylesheet.Proofs.Calls
import Stylesheet.Proofs.Attribution
import Stylesheet.Proofs.Ruler
import Stylesheet.Proofs.WellNested
import Stylesheet.Proofs.Numbering
import Stylesheet.Proofs.ParsedTree
import Stylesheet.Proofs.PropertyNames
import Stylesheet.Proofs.Substituted
import Stylesheet.Proofs.Comments
import Stylesheet.Proofs.FaultSearch
import Stylesheet.Proofs.Tolerance
import Stylesheet.Proofs.ErrorRegions
import Stylesheet.Proofs.Excerpt
import Stylesheet.Proofs.Nesting
import Stylesheet.Proofs.CallPlaces
import Stylesheet.Proofs.TextOrder
import Stylesheet.Proofs.Sensible
import Stylesheet.Proofs.FileText
import Stylesheet.Proofs.Numerals
import Stylesheet.Proofs.Overrides
import Stylesheet.Proofs.SharedVariables
import Stylesheet.Proofs.History
import Stylesheet.Proofs.Documents
import Stylesheet.Proofs.Transparency
import Stylesheet.Proofs.Candidates
import Stylesheet.Proofs.Fallbacks
import Stylesheet.Proofs.DistinctKeys
import Stylesheet.Proofs.Layers
import Stylesheet.Proofs.TextValues
import Stylesheet.Proofs.SelectorOrder
import Stylesheet.Proofs.ByteOrderMarks
import Stylesheet.Proofs.CodecWidths
import Stylesheet.Proofs.KeptLocations
import Stylesheet.Proofs.ExcerptLines
import Stylesheet.Proofs.Positions
import Stylesheet.Proofs.Combinators

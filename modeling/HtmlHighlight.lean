import HtmlHighlight.Main
import HtmlHighlight.Page.Template
import HtmlHighlight.Page.TemplateError
import HtmlHighlight.Proofs.AdjacentElements
import HtmlHighlight.Proofs.AttributeMarkers
import HtmlHighlight.Proofs.AttributeRecognition
import HtmlHighlight.Proofs.Backtracking
import HtmlHighlight.Proofs.Boundaries
import HtmlHighlight.Proofs.CommentMarks
import HtmlHighlight.Proofs.CommentRecognition
import HtmlHighlight.Proofs.CommentsOutsideTags
import HtmlHighlight.Proofs.CommonIndentation
import HtmlHighlight.Proofs.Decoding
import HtmlHighlight.Proofs.DeeperIndentation
import HtmlHighlight.Proofs.Enclosure
import HtmlHighlight.Proofs.EncodedSource
import HtmlHighlight.Proofs.EntityPair
import HtmlHighlight.Proofs.FirstOccurrence
import HtmlHighlight.Proofs.Fusion
import HtmlHighlight.Proofs.KeptLines
import HtmlHighlight.Proofs.MarkerCount
import HtmlHighlight.Proofs.MarkerRemoval
import HtmlHighlight.Proofs.Nesting
import HtmlHighlight.Proofs.PageParts
import HtmlHighlight.Proofs.Passes
import HtmlHighlight.Proofs.Preview
import HtmlHighlight.Proofs.ReadingRules
import HtmlHighlight.Proofs.RoundTrip
import HtmlHighlight.Proofs.RunLookup
import HtmlHighlight.Proofs.RunMarks
import HtmlHighlight.Proofs.RunRecognition
import HtmlHighlight.Proofs.Search
import HtmlHighlight.Proofs.SequenceRemoval
import HtmlHighlight.Proofs.SourceAgreement
import HtmlHighlight.Proofs.SpanReading
import HtmlHighlight.Proofs.TagInsertion
import HtmlHighlight.Proofs.TagInteriors
import HtmlHighlight.Proofs.TagRecognition
import HtmlHighlight.Proofs.TagSequence
import HtmlHighlight.Proofs.TerminalState
import HtmlHighlight.Proofs.TrimmingPatterns
import HtmlHighlight.Proofs.UnindentedForm
import HtmlHighlight.Source.Workspace

import RuleHighlight.Session
import RuleHighlight.Main
import RuleHighlight.Proofs.CharacterClasses
import RuleHighlight.Proofs.LineBreak
import RuleHighlight.Proofs.Precedence
import RuleHighlight.Proofs.SessionHistory
import RuleHighlight.Proofs.Render.Terminal
import RuleHighlight.Proofs.Render.Markup
import RuleHighlight.Proofs.WholeWords
import RuleHighlight.Proofs.DeclarationSpans
import RuleHighlight.Proofs.Covering
import RuleHighlight.Proofs.Pattern.Interior
import RuleHighlight.Proofs.CommentInterior
import RuleHighlight.Proofs.Yaml.Keys
import RuleHighlight.Proofs.Theme.Merge
import RuleHighlight.Proofs.Theme.Loading
import RuleHighlight.Proofs.Theme.Faults
import RuleHighlight.Proofs.Pattern.ByteSearch
import RuleHighlight.Proofs.Render.JsonReader
import RuleHighlight.Proofs.Render.JsonRoundTrip
import RuleHighlight.Proofs.Text.Utf8
import RuleHighlight.Proofs.CommandLine.Source
import RuleHighlight.Proofs.Pattern.LiteralReader
import RuleHighlight.Proofs.Selection
import RuleHighlight.Proofs.Pattern.NumberPool
import RuleHighlight.Proofs.Pattern.DecimalSearch
import RuleHighlight.Proofs.Pattern.WordSearch
import RuleHighlight.Proofs.Pattern.DeclarationSearch
import RuleHighlight.Proofs.Pattern.CommentSearch
import RuleHighlight.Proofs.Pattern.OperatorSearch
import RuleHighlight.Proofs.Pattern.Lines
import RuleHighlight.Proofs.Losers
import RuleHighlight.Proofs.Emission
import RuleHighlight.Proofs.Render.Rendition
import RuleHighlight.Proofs.Render.Unstyled
import RuleHighlight.Proofs.CommandLine.LastLine
import RuleHighlight.Proofs.Theme.Listing

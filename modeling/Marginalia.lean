import Marginalia.Assembly
import Marginalia.CommandLine.Arguments
import Marginalia.CommandLine.Session
import Marginalia.Comment.Arguments
import Marginalia.Comment.Lines
import Marginalia.Comment.Tags
import Marginalia.Count
import Marginalia.Cursor
import Marginalia.Diagnostic
import Marginalia.Document.Format
import Marginalia.Document.Listing
import Marginalia.Document.Markdown
import Marginalia.Document.Slug
import Marginalia.File.Path
import Marginalia.File.Pattern
import Marginalia.File.Search
import Marginalia.File.Tree
import Marginalia.Iteration
import Marginalia.Json.Findings
import Marginalia.Json.Parser
import Marginalia.Json.Printer
import Marginalia.Json.Value
import Marginalia.Language.Anchors
import Marginalia.Language.Builtin
import Marginalia.Language.Catalogue
import Marginalia.Language.Grammar
import Marginalia.Language.Lookahead
import Marginalia.Main
import Marginalia.Nesting
import Marginalia.Outline
import Marginalia.Position
import Marginalia.Proofs.Abreast
import Marginalia.Proofs.AnchorNames
import Marginalia.Proofs.ArgumentChecks
import Marginalia.Proofs.ArgumentForms
import Marginalia.Proofs.Attachment
import Marginalia.Proofs.Bearings
import Marginalia.Proofs.BodyWait
import Marginalia.Proofs.Boundary
import Marginalia.Proofs.Bounds
import Marginalia.Proofs.Brackets
import Marginalia.Proofs.CommentForms
import Marginalia.Proofs.Composition
import Marginalia.Proofs.Conservation
import Marginalia.Proofs.Constructs
import Marginalia.Proofs.Containment
import Marginalia.Proofs.Continuation
import Marginalia.Proofs.Course
import Marginalia.Proofs.CutHeaders
import Marginalia.Proofs.DepthLimit
import Marginalia.Proofs.Documented
import Marginalia.Proofs.Enclosure
import Marginalia.Proofs.Extension
import Marginalia.Proofs.Fields
import Marginalia.Proofs.Files
import Marginalia.Proofs.Gaps
import Marginalia.Proofs.Graft
import Marginalia.Proofs.Headers
import Marginalia.Proofs.InStep
import Marginalia.Proofs.Indentation
import Marginalia.Proofs.Inertness
import Marginalia.Proofs.JsonFindings
import Marginalia.Proofs.JsonText
import Marginalia.Proofs.Lineage
import Marginalia.Proofs.Locality
import Marginalia.Proofs.Lookahead
import Marginalia.Proofs.Loops
import Marginalia.Proofs.Movement
import Marginalia.Proofs.Names
import Marginalia.Proofs.Nested
import Marginalia.Proofs.Offside
import Marginalia.Proofs.Opacity
import Marginalia.Proofs.Outdent
import Marginalia.Proofs.OutlineOrder
import Marginalia.Proofs.Partition
import Marginalia.Proofs.Placement
import Marginalia.Proofs.Positions
import Marginalia.Proofs.Progress
import Marginalia.Proofs.PythonHeaders
import Marginalia.Proofs.Reachable
import Marginalia.Proofs.Reading
import Marginalia.Proofs.Reassembly
import Marginalia.Proofs.Relocation
import Marginalia.Proofs.Resolution
import Marginalia.Proofs.Routes
import Marginalia.Proofs.Seats
import Marginalia.Proofs.Sequel
import Marginalia.Proofs.Sessions
import Marginalia.Proofs.Settlement
import Marginalia.Proofs.Shift
import Marginalia.Proofs.Skimming
import Marginalia.Proofs.Slugs
import Marginalia.Proofs.SoundCourse
import Marginalia.Proofs.SourceOrder
import Marginalia.Proofs.Spares
import Marginalia.Proofs.Splitting
import Marginalia.Proofs.StableSort
import Marginalia.Proofs.Stride
import Marginalia.Proofs.TagBlind
import Marginalia.Proofs.TagOrder
import Marginalia.Proofs.TagPlaces
import Marginalia.Proofs.TagReports
import Marginalia.Proofs.TagSeating
import Marginalia.Proofs.Tokens
import Marginalia.Proofs.Tolerance
import Marginalia.Proofs.Transitions
import Marginalia.Proofs.Turns
import Marginalia.Proofs.Undisturbed
import Marginalia.Proofs.UnknownTags
import Marginalia.Proofs.Walk
import Marginalia.Proofs.WalkOrder
import Marginalia.Proofs.Window
import Marginalia.Scan.Blocks
import Marginalia.Scan.Code
import Marginalia.Scan.Literal
import Marginalia.Scan.Pass
import Marginalia.Scan.Remark
import Marginalia.Scan.Run
import Marginalia.Scan.Setup
import Marginalia.Tag.Definition
import Marginalia.Tag.Registry
import Marginalia.Text.Alphabetic
import Marginalia.Text.Alphanumeric
import Marginalia.Text.Blank
import Marginalia.Text.Bytes
import Marginalia.Text.Lowercase
import Marginalia.Text.Ranges
import Marginalia.Text.Word

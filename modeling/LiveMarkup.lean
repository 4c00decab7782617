import LiveMarkup.Decimal.Binary
import LiveMarkup.Decimal.Layout
import LiveMarkup.Decimal.Reader
import LiveMarkup.Decimal.Shortest
import LiveMarkup.Document.Basic
import LiveMarkup.Document.Graft
import LiveMarkup.Document.Owned
import LiveMarkup.Document.Query
import LiveMarkup.Expr.Basic
import LiveMarkup.Expr.Error
import LiveMarkup.Expr.Eval
import LiveMarkup.Expr.Evaluate
import LiveMarkup.Expr.ItemNames
import LiveMarkup.Expr.Lexer
import LiveMarkup.Expr.Parser
import LiveMarkup.Expr.Substitute
import LiveMarkup.Expr.Token
import LiveMarkup.Expr.Variables
import LiveMarkup.Handler.Attribute
import LiveMarkup.Handler.Call
import LiveMarkup.Handler.ModuleText
import LiveMarkup.Handler.Registry
import LiveMarkup.Interpolation
import LiveMarkup.Json.Basic
import LiveMarkup.Json.Decode
import LiveMarkup.Json.Printer
import LiveMarkup.Json.Raw
import LiveMarkup.Keyed
import LiveMarkup.Main
import LiveMarkup.Markup.Element
import LiveMarkup.Markup.Entity
import LiveMarkup.Markup.Event
import LiveMarkup.Markup.Parse
import LiveMarkup.Markup.Tree
import LiveMarkup.Page.Basic
import LiveMarkup.Page.Binding
import LiveMarkup.Page.Placement
import LiveMarkup.Page.Records
import LiveMarkup.Page.Start
import LiveMarkup.Page.Update
import LiveMarkup.Page.View
import LiveMarkup.Proofs.Decimal.Positions
import LiveMarkup.Proofs.Decimal.WholeNumbers
import LiveMarkup.Proofs.Document.Arena
import LiveMarkup.Proofs.Document.Changes
import LiveMarkup.Proofs.Document.Clearing
import LiveMarkup.Proofs.Document.Confined
import LiveMarkup.Proofs.Document.Content
import LiveMarkup.Proofs.Document.Course
import LiveMarkup.Proofs.Document.Forest
import LiveMarkup.Proofs.Document.Growth
import LiveMarkup.Proofs.Document.Handles
import LiveMarkup.Proofs.Document.Instances
import LiveMarkup.Proofs.Document.Moving
import LiveMarkup.Proofs.Document.Operations
import LiveMarkup.Proofs.Document.Orderly
import LiveMarkup.Proofs.Document.Ownership
import LiveMarkup.Proofs.Document.Parsing
import LiveMarkup.Proofs.Document.Placing
import LiveMarkup.Proofs.Document.Precedence
import LiveMarkup.Proofs.Document.Retained
import LiveMarkup.Proofs.Document.Settled
import LiveMarkup.Proofs.Document.Slots
import LiveMarkup.Proofs.Document.Stale
import LiveMarkup.Proofs.Document.Steady
import LiveMarkup.Proofs.Document.Stocked
import LiveMarkup.Proofs.Document.Traversal
import LiveMarkup.Proofs.Document.Walk
import LiveMarkup.Proofs.Document.WellFormed
import LiveMarkup.Proofs.Expr.Accepted
import LiveMarkup.Proofs.Expr.Coverage
import LiveMarkup.Proofs.Expr.Ending
import LiveMarkup.Proofs.Expr.Evaluated
import LiveMarkup.Proofs.Expr.Grammar
import LiveMarkup.Proofs.Expr.Groups
import LiveMarkup.Proofs.Expr.Lexing
import LiveMarkup.Proofs.Expr.Lines
import LiveMarkup.Proofs.Expr.LongestMatch
import LiveMarkup.Proofs.Expr.Lookup
import LiveMarkup.Proofs.Expr.Mask
import LiveMarkup.Proofs.Expr.NamedItems
import LiveMarkup.Proofs.Expr.Normalized
import LiveMarkup.Proofs.Expr.Parser
import LiveMarkup.Proofs.Expr.Partition
import LiveMarkup.Proofs.Expr.Pasting
import LiveMarkup.Proofs.Expr.Renamed
import LiveMarkup.Proofs.Expr.Replaced
import LiveMarkup.Proofs.Expr.Respelling
import LiveMarkup.Proofs.Expr.Seams
import LiveMarkup.Proofs.Expr.Spans
import LiveMarkup.Proofs.Expr.Swaps
import LiveMarkup.Proofs.Expr.Variables
import LiveMarkup.Proofs.Handler.Arguments
import LiveMarkup.Proofs.Json.Strings
import LiveMarkup.Proofs.Json.Values
import LiveMarkup.Proofs.Markup.Building
import LiveMarkup.Proofs.Markup.Canonical
import LiveMarkup.Proofs.Markup.Comments
import LiveMarkup.Proofs.Markup.Escaping
import LiveMarkup.Proofs.Markup.Nodes
import LiveMarkup.Proofs.Markup.Normal
import LiveMarkup.Proofs.Markup.Progress
import LiveMarkup.Proofs.Markup.Reading
import LiveMarkup.Proofs.Markup.Roundtrip
import LiveMarkup.Proofs.Page.Attached
import LiveMarkup.Proofs.Page.Attributes
import LiveMarkup.Proofs.Page.Contents
import LiveMarkup.Proofs.Page.Depth
import LiveMarkup.Proofs.Page.Displays
import LiveMarkup.Proofs.Page.Expanded
import LiveMarkup.Proofs.Page.Extends
import LiveMarkup.Proofs.Page.Fits
import LiveMarkup.Proofs.Page.Handlers
import LiveMarkup.Proofs.Page.Idempotence
import LiveMarkup.Proofs.Page.Incremental
import LiveMarkup.Proofs.Page.LifeCycle
import LiveMarkup.Proofs.Page.Loops
import LiveMarkup.Proofs.Page.Mark
import LiveMarkup.Proofs.Page.Meaning
import LiveMarkup.Proofs.Page.Places
import LiveMarkup.Proofs.Page.Precedence
import LiveMarkup.Proofs.Page.Refinement
import LiveMarkup.Proofs.Page.Scoping
import LiveMarkup.Proofs.Page.Showing
import LiveMarkup.Proofs.Page.Shown
import LiveMarkup.Proofs.Page.Shows
import LiveMarkup.Proofs.Page.Skip
import LiveMarkup.Proofs.Page.Spared
import LiveMarkup.Proofs.Page.Starting
import LiveMarkup.Proofs.Page.Steps
import LiveMarkup.Proofs.Page.Trace
import LiveMarkup.Proofs.Page.Turns
import LiveMarkup.Proofs.Page.Vetted
import LiveMarkup.Proofs.Page.Vetting
import LiveMarkup.Proofs.Page.Weights
import LiveMarkup.Proofs.Result
import LiveMarkup.Proofs.Template.Anchors
import LiveMarkup.Proofs.Template.Bindings
import LiveMarkup.Proofs.Template.BraceDepth
import LiveMarkup.Proofs.Template.BraceGroups
import LiveMarkup.Proofs.Template.Checked
import LiveMarkup.Proofs.Template.ClassReferences
import LiveMarkup.Proofs.Template.Completion
import LiveMarkup.Proofs.Template.Found
import LiveMarkup.Proofs.Template.Headers
import LiveMarkup.Proofs.Template.Interpolated
import LiveMarkup.Proofs.Template.Nesting
import LiveMarkup.Proofs.Template.Numbering
import LiveMarkup.Proofs.Template.Outline
import LiveMarkup.Proofs.Template.Pieces
import LiveMarkup.Proofs.Template.Preserved
import LiveMarkup.Proofs.Template.Recovery
import LiveMarkup.Proofs.Template.Regular
import LiveMarkup.Proofs.Template.Rewriting
import LiveMarkup.Proofs.Template.Rounds
import LiveMarkup.Proofs.Template.Scanning
import LiveMarkup.Proofs.Template.Shaped
import LiveMarkup.Proofs.Template.Spelled
import LiveMarkup.Proofs.Template.Static
import LiveMarkup.Proofs.Template.Stored
import LiveMarkup.Proofs.Template.Stylesheet
import LiveMarkup.Proofs.Template.Tags
import LiveMarkup.Proofs.Template.Unbound
import LiveMarkup.Proofs.Template.Unescaping
import LiveMarkup.Proofs.Template.Untouched
import LiveMarkup.Proofs.Template.Whole
import LiveMarkup.Proofs.Text.Bytes
import LiveMarkup.Proofs.Text.Trim
import LiveMarkup.Template.Basic
import LiveMarkup.Template.Binding
import LiveMarkup.Template.Check
import LiveMarkup.Template.Compile
import LiveMarkup.Template.Directive
import LiveMarkup.Template.Json
import LiveMarkup.Template.Marker
import LiveMarkup.Template.Names
import LiveMarkup.Template.ScopedClass
import LiveMarkup.Template.Tag
import LiveMarkup.Template.Warning
import LiveMarkup.Text.Blank
import LiveMarkup.Text.Crc32
import LiveMarkup.Text.Hex
import LiveMarkup.Text.Quoted
import LiveMarkup.Text.Scan
import LiveMarkup.Text.Word
import LiveMarkup.Value.Basic
import LiveMarkup.Value.Json
import LiveMarkup.Value.Scope
import LiveMarkup.Workspace.Arguments
import LiveMarkup.Workspace.Command
import LiveMarkup.Workspace.Compile
import LiveMarkup.Workspace.Config
import LiveMarkup.Workspace.FileTree
import LiveMarkup.Workspace.Host
import LiveMarkup.Workspace.Init
import LiveMarkup.Workspace.Module
import LiveMarkup.Workspace.Path
import LiveMarkup.Workspace.Render

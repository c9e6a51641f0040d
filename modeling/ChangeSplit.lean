import ChangeSplit.ChangeGraph.Basic
import ChangeSplit.ChangeGraph.Build
import ChangeSplit.ChangeGraph.Lookup
import ChangeSplit.ChangeGraph.Placement
import ChangeSplit.ChangeGraph.Source
import ChangeSplit.ChangeGraph.Wiring
import ChangeSplit.Collection.OrderedSet
import ChangeSplit.Collection.Sorting
import ChangeSplit.Collection.Table
import ChangeSplit.CommandLine.Option
import ChangeSplit.CommandLine.Recording
import ChangeSplit.CommandLine.Run
import ChangeSplit.CommandLine.Settings
import ChangeSplit.Data.Reader
import ChangeSplit.Diff.Content
import ChangeSplit.Diff.Hunk
import ChangeSplit.Diff.Matching
import ChangeSplit.Diff.Reader
import ChangeSplit.Entity
import ChangeSplit.Folder
import ChangeSplit.Graph.Basic
import ChangeSplit.Graph.Distance
import ChangeSplit.Graph.Facts
import ChangeSplit.Graph.Kind
import ChangeSplit.Grouping.Affinity
import ChangeSplit.Grouping.Cluster
import ChangeSplit.Grouping.Greedy
import ChangeSplit.Grouping.Group
import ChangeSplit.Grouping.Merging
import ChangeSplit.Grouping.Ownership
import ChangeSplit.Grouping.Partition
import ChangeSplit.Java.Declaration
import ChangeSplit.Java.Grammar
import ChangeSplit.Java.Kind
import ChangeSplit.Java.Mention
import ChangeSplit.Java.Pattern
import ChangeSplit.Java.Place
import ChangeSplit.Java.Source
import ChangeSplit.Java.Symbols
import ChangeSplit.Java.Token
import ChangeSplit.Java.Tree
import ChangeSplit.Main
import ChangeSplit.Note
import ChangeSplit.Number.Binary64
import ChangeSplit.Number.Numeral
import ChangeSplit.Number.Shortest
import ChangeSplit.Pool
import ChangeSplit.Proofs.ChangeGraph.Agreement
import ChangeSplit.Proofs.ChangeGraph.Anchor
import ChangeSplit.Proofs.ChangeGraph.Apart
import ChangeSplit.Proofs.ChangeGraph.Ascent
import ChangeSplit.Proofs.ChangeGraph.Build
import ChangeSplit.Proofs.ChangeGraph.Container
import ChangeSplit.Proofs.ChangeGraph.Containment
import ChangeSplit.Proofs.ChangeGraph.Formed
import ChangeSplit.Proofs.ChangeGraph.Justification
import ChangeSplit.Proofs.ChangeGraph.Link
import ChangeSplit.Proofs.ChangeGraph.Lookup
import ChangeSplit.Proofs.ChangeGraph.Mark
import ChangeSplit.Proofs.ChangeGraph.Noted
import ChangeSplit.Proofs.ChangeGraph.Origin
import ChangeSplit.Proofs.ChangeGraph.Overload
import ChangeSplit.Proofs.ChangeGraph.Part
import ChangeSplit.Proofs.ChangeGraph.Placement
import ChangeSplit.Proofs.ChangeGraph.Record
import ChangeSplit.Proofs.ChangeGraph.Reference
import ChangeSplit.Proofs.ChangeGraph.Revision
import ChangeSplit.Proofs.ChangeGraph.Source
import ChangeSplit.Proofs.ChangeGraph.Step
import ChangeSplit.Proofs.ChangeGraph.Unblocked
import ChangeSplit.Proofs.ChangeGraph.Wiring
import ChangeSplit.Proofs.Collection.OrderedSet
import ChangeSplit.Proofs.Collection.Sorting
import ChangeSplit.Proofs.Collection.Table
import ChangeSplit.Proofs.Collection.Traversal
import ChangeSplit.Proofs.Data.Reader
import ChangeSplit.Proofs.Diff.Boundary
import ChangeSplit.Proofs.Diff.Content
import ChangeSplit.Proofs.Diff.Counting
import ChangeSplit.Proofs.Diff.HunkName
import ChangeSplit.Proofs.Diff.Matching
import ChangeSplit.Proofs.Diff.Reader
import ChangeSplit.Proofs.Diff.Reading
import ChangeSplit.Proofs.Diff.Scanner
import ChangeSplit.Proofs.Diff.Sections
import ChangeSplit.Proofs.Diff.Unlabelled
import ChangeSplit.Proofs.Diff.Writer
import ChangeSplit.Proofs.Graph.Built
import ChangeSplit.Proofs.Graph.Distance
import ChangeSplit.Proofs.Graph.Drawing
import ChangeSplit.Proofs.Graph.Embedding
import ChangeSplit.Proofs.Graph.Facts
import ChangeSplit.Proofs.Graph.Search
import ChangeSplit.Proofs.Grouping.Affinity
import ChangeSplit.Proofs.Grouping.Arrangement
import ChangeSplit.Proofs.Grouping.Attraction
import ChangeSplit.Proofs.Grouping.Candidate
import ChangeSplit.Proofs.Grouping.Chain
import ChangeSplit.Proofs.Grouping.Closure
import ChangeSplit.Proofs.Grouping.Copy
import ChangeSplit.Proofs.Grouping.Greedy
import ChangeSplit.Proofs.Grouping.Independence
import ChangeSplit.Proofs.Grouping.Initial
import ChangeSplit.Proofs.Grouping.Judgement
import ChangeSplit.Proofs.Grouping.Merging
import ChangeSplit.Proofs.Grouping.Mirror
import ChangeSplit.Proofs.Grouping.NameOrder
import ChangeSplit.Proofs.Grouping.Ownership
import ChangeSplit.Proofs.Grouping.Partition
import ChangeSplit.Proofs.Grouping.Relabeling
import ChangeSplit.Proofs.Grouping.Separation
import ChangeSplit.Proofs.Grouping.Threshold
import ChangeSplit.Proofs.Grouping.Together
import ChangeSplit.Proofs.Java.Anchor
import ChangeSplit.Proofs.Java.Body
import ChangeSplit.Proofs.Java.Commented
import ChangeSplit.Proofs.Java.Condensed
import ChangeSplit.Proofs.Java.Covered
import ChangeSplit.Proofs.Java.Cut
import ChangeSplit.Proofs.Java.Declaration
import ChangeSplit.Proofs.Java.Declarator
import ChangeSplit.Proofs.Java.Enclosing
import ChangeSplit.Proofs.Java.Extent
import ChangeSplit.Proofs.Java.Footing
import ChangeSplit.Proofs.Java.Grammar
import ChangeSplit.Proofs.Java.Identity
import ChangeSplit.Proofs.Java.Line
import ChangeSplit.Proofs.Java.Members
import ChangeSplit.Proofs.Java.Mention
import ChangeSplit.Proofs.Java.Multiplicity
import ChangeSplit.Proofs.Java.Naming
import ChangeSplit.Proofs.Java.Nesting
import ChangeSplit.Proofs.Java.OuterType
import ChangeSplit.Proofs.Java.Outline
import ChangeSplit.Proofs.Java.Overload
import ChangeSplit.Proofs.Java.Piece
import ChangeSplit.Proofs.Java.Place
import ChangeSplit.Proofs.Java.Scan
import ChangeSplit.Proofs.Java.Shadow
import ChangeSplit.Proofs.Java.Shape
import ChangeSplit.Proofs.Java.Skipped
import ChangeSplit.Proofs.Java.Source
import ChangeSplit.Proofs.Java.Spacing
import ChangeSplit.Proofs.Java.Span
import ChangeSplit.Proofs.Java.Statement
import ChangeSplit.Proofs.Java.Stretch
import ChangeSplit.Proofs.Java.Tight
import ChangeSplit.Proofs.Java.Token
import ChangeSplit.Proofs.Java.TypeText
import ChangeSplit.Proofs.Java.Undisturbed
import ChangeSplit.Proofs.Java.Wording
import ChangeSplit.Proofs.Report.Data
import ChangeSplit.Proofs.Run.Course
import ChangeSplit.Proofs.Run.Errand
import ChangeSplit.Proofs.Run.Layout
import ChangeSplit.Proofs.Text.Lines
import ChangeSplit.Proofs.Text.Quoted
import ChangeSplit.Proofs.Text.Utf8
import ChangeSplit.Report
import ChangeSplit.Revision
import ChangeSplit.Run
import ChangeSplit.Settings
import ChangeSplit.Text.Blank
import ChangeSplit.Text.Category
import ChangeSplit.Text.Category.IdentifierRanges
import ChangeSplit.Text.Category.UnprintableRanges
import ChangeSplit.Text.Category.UppercaseRanges
import ChangeSplit.Text.Category.WordRanges
import ChangeSplit.Text.Quoted
import ChangeSplit.Text.Utf8

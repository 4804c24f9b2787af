import TreeQuery.Document.Outline
import TreeQuery.Engine
import TreeQuery.Proofs.Adapter.Test
import TreeQuery.Proofs.Cache
import TreeQuery.Proofs.Checked.Compile
import TreeQuery.Proofs.Checked.Reader
import TreeQuery.Proofs.Checked.Sentences
import TreeQuery.Proofs.Checked.Token
import TreeQuery.Proofs.Document.Element
import TreeQuery.Proofs.Document.Growth
import TreeQuery.Proofs.Document.Links
import TreeQuery.Proofs.Document.Order
import TreeQuery.Proofs.Document.Reach
import TreeQuery.Proofs.Engine.History
import TreeQuery.Proofs.Engine.Order
import TreeQuery.Proofs.Engine.Scope
import TreeQuery.Proofs.Engine.Selection
import TreeQuery.Proofs.Engine.Shape
import TreeQuery.Proofs.Engine.Shorthand
import TreeQuery.Proofs.Engine.Union
import TreeQuery.Proofs.FirstPlaces
import TreeQuery.Proofs.Literal
import TreeQuery.Proofs.Name.Extent
import TreeQuery.Proofs.Name.Run
import TreeQuery.Proofs.Name.Spelling
import TreeQuery.Proofs.Query.Blame
import TreeQuery.Proofs.Query.Blocks
import TreeQuery.Proofs.Query.Canonical
import TreeQuery.Proofs.Query.Columns
import TreeQuery.Proofs.Query.Listing
import TreeQuery.Proofs.Query.Recovery
import TreeQuery.Proofs.Report.MarkedSpan
import TreeQuery.Proofs.Search.Columns
import TreeQuery.Proofs.Search.Demand
import TreeQuery.Proofs.Search.Drawing
import TreeQuery.Proofs.Search.Eager
import TreeQuery.Proofs.Search.EagerTrace
import TreeQuery.Proofs.Search.Economy
import TreeQuery.Proofs.Search.ExactWork
import TreeQuery.Proofs.Search.Expansion
import TreeQuery.Proofs.Search.Handlers
import TreeQuery.Proofs.Search.Laziness
import TreeQuery.Proofs.Search.Outline
import TreeQuery.Proofs.Search.PartialAdapter
import TreeQuery.Proofs.Search.Projection
import TreeQuery.Proofs.Search.Refinement
import TreeQuery.Proofs.Search.Repetition
import TreeQuery.Proofs.Search.Tracing
import TreeQuery.Proofs.Search.Watched
import TreeQuery.Proofs.Selector.Blame
import TreeQuery.Proofs.Selector.Budget
import TreeQuery.Proofs.Selector.Canonical
import TreeQuery.Proofs.Selector.Grammar
import TreeQuery.Proofs.Selector.Joining
import TreeQuery.Proofs.Selector.Meaning
import TreeQuery.Proofs.Selector.Reading
import TreeQuery.Proofs.Selector.Retelling
import TreeQuery.Proofs.Selector.RoundTrip
import TreeQuery.Proofs.Selector.Spacing
import TreeQuery.Proofs.Selector.Viable
import TreeQuery.Proofs.Text.Quoted
import TreeQuery.Proofs.Text.Words
import TreeQuery.Proofs.Token.FoldedParts
import TreeQuery.Proofs.Token.Folding
import TreeQuery.Proofs.Token.Gist
import TreeQuery.Proofs.Token.Literals
import TreeQuery.Proofs.Token.LongestMatch
import TreeQuery.Proofs.Token.Names
import TreeQuery.Proofs.Token.Pattern
import TreeQuery.Proofs.Token.Placement
import TreeQuery.Proofs.Token.Shape
import TreeQuery.Proofs.Token.Splice
import TreeQuery.Proofs.Token.Tiling
import TreeQuery.Query.Blocks
import TreeQuery.Selector.Printer

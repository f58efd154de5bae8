import TreeFeller.Library.Program
import TreeFeller.Language
import TreeFeller.Lexer
import TreeFeller.Cells
import TreeFeller.Speculation
import TreeFeller.Parser
import TreeFeller.Driver
import TreeFeller.Visible
import TreeFeller.Settling
import TreeFeller.Raw
import TreeFeller.FieldRows
import TreeFeller.FilterRuns
import TreeFeller.SmallTables
import TreeFeller.Projection
import TreeFeller.NamedOnly
import TreeFeller.Folding
import TreeFeller.Library.Ledger
import TreeFeller.Operations
import TreeFeller.Traces
import TreeFeller.Handovers
import TreeFeller.Returns
import TreeFeller.VisibleBooks
import TreeFeller.PackedTables
import TreeFeller.Library.FirstMaximum
import TreeFeller.Shapes
import TreeFeller.Selection
import TreeFeller.Frames
import TreeFeller.Library.Journal
import TreeFeller.Failures
import TreeFeller.SplitReports
import TreeFeller.Graphs
import TreeFeller.Library.Rounds
import TreeFeller.PopPaths
import TreeFeller.Popping
import TreeFeller.PopEnds
import TreeFeller.PopChains
import TreeFeller.Reached
import TreeFeller.Cuts
import TreeFeller.Extras
import TreeFeller.RawDriving
import TreeFeller.ExtraRuns
import TreeFeller.ExtraPlaces
import TreeFeller.Landings
import TreeFeller.Edits
import TreeFeller.Recovery
import TreeFeller.Merging
import TreeFeller.Popped
import TreeFeller.Library.Scalars
import TreeFeller.Decoding
import TreeFeller.Walking
import TreeFeller.Positions
import TreeFeller.LexerHistories
import TreeFeller.Columns
import TreeFeller.Reuse
import TreeFeller.StackLinks
import TreeFeller.StackEdits
import TreeFeller.StackRecovery
import TreeFeller.StackMerges
import TreeFeller.StackPops
import TreeFeller.StackHeads
import TreeFeller.StackReductions
import TreeFeller.StackRoots
import TreeFeller.StackTurns
import TreeFeller.StackTokens
import TreeFeller.StackRuns
import TreeFeller.EndTrees
import TreeFeller.EndSplits
import TreeFeller.EndRuns
import TreeFeller.EndReplays
import TreeFeller.VisibleReturns
import TreeFeller.Custody
import TreeFeller.Slab
import TreeFeller.SlabCustody
import TreeFeller.StackRounds
import TreeFeller.StackEnds
import TreeFeller.StackOwners
import TreeFeller.StackReplays
import TreeFeller.StackDriver
import TreeFeller.LetterTables
import TreeFeller.StackGraphs
import TreeFeller.Library.Congruence
import TreeFeller.Judgments
import TreeFeller.Allocators
import TreeFeller.Sinks
import TreeFeller.SinkRuns
import TreeFeller.Collectors
import TreeFeller.Consumers
import TreeFeller.Forests
import TreeFeller.VisibleRuns
import TreeFeller.Sites
import TreeFeller.SitedGraphs
import TreeFeller.SitedTurns
import TreeFeller.SitedSplits
import TreeFeller.SitedRuns
import TreeFeller.SitedReplays
import TreeFeller.SitedReports
import TreeFeller.SitedFilters
import TreeFeller.Grafts
import TreeFeller.Rebuilds
import TreeFeller.CarriedTrees
import TreeFeller.GraftedGraphs
import TreeFeller.GraftedRoots
import TreeFeller.GraftedRuns
import TreeFeller.LonePaths
import TreeFeller.RebuiltStacks

import QueryPlan.Aggregate
import QueryPlan.Binary64.Basic
import QueryPlan.Binary64.Shortest
import QueryPlan.Binding
import QueryPlan.Catalog.Basic
import QueryPlan.Catalog.Reader
import QueryPlan.Collation
import QueryPlan.Column
import QueryPlan.CommandLine.Answer
import QueryPlan.CommandLine.Arguments
import QueryPlan.Document.Build
import QueryPlan.Document.Expr
import QueryPlan.Document.Field
import QueryPlan.Document.Relation
import QueryPlan.Document.Scalar
import QueryPlan.Error
import QueryPlan.Explain.Entry
import QueryPlan.Explain.Node
import QueryPlan.Explain.Tree
import QueryPlan.Expr.Basic
import QueryPlan.Expr.Conjunction
import QueryPlan.Expr.Literal
import QueryPlan.Expr.Printer
import QueryPlan.Expr.ScalarOp
import QueryPlan.Expr.Window
import QueryPlan.Expr.WindowCall
import QueryPlan.Json.Basic
import QueryPlan.Json.Printer
import QueryPlan.Json.Reader
import QueryPlan.Json.Record
import QueryPlan.Json.Written
import QueryPlan.Main
import QueryPlan.Operator
import QueryPlan.Pass.ChainFusion
import QueryPlan.Pass.CrossJoins
import QueryPlan.Pass.DeadColumns
import QueryPlan.Pass.FilterFolding
import QueryPlan.Pass.Fresh
import QueryPlan.Pass.FusedNode
import QueryPlan.Pass.IdentityProjects
import QueryPlan.Pass.JoinChains
import QueryPlan.Pass.NopAggregates
import QueryPlan.Pass.Pipeline
import QueryPlan.Pass.RedundantSorts
import QueryPlan.Pass.WindowNarrowing
import QueryPlan.Pass.WindowSeparation
import QueryPlan.Plan.Basic
import QueryPlan.Plan.Collation
import QueryPlan.Plan.Node
import QueryPlan.Plan.Output
import QueryPlan.Plan.Redirect
import QueryPlan.Plan.Validity
import QueryPlan.Proofs.Catalog.Loading
import QueryPlan.Proofs.ChainFusion.Compounds
import QueryPlan.Proofs.ChainFusion.Coverage
import QueryPlan.Proofs.ChainFusion.Exactness
import QueryPlan.Proofs.ChainFusion.History
import QueryPlan.Proofs.ChainFusion.Inlining
import QueryPlan.Proofs.ChainFusion.Replacement
import QueryPlan.Proofs.ChainFusion.Sources
import QueryPlan.Proofs.ChainFusion.Stopping
import QueryPlan.Proofs.ChainFusion.Termination
import QueryPlan.Proofs.CrossJoins.Exactness
import QueryPlan.Proofs.CrossJoins.Step
import QueryPlan.Proofs.Document.Relation
import QueryPlan.Proofs.Explain.Entries
import QueryPlan.Proofs.Explain.Unfolding
import QueryPlan.Proofs.Expr.Columns
import QueryPlan.Proofs.Expr.Conjuncts
import QueryPlan.Proofs.Expr.ScaledText
import QueryPlan.Proofs.Expr.Stateful
import QueryPlan.Proofs.Expr.Subqueries
import QueryPlan.Proofs.Expr.WindowSplit
import QueryPlan.Proofs.FilterFolding.Exactness
import QueryPlan.Proofs.FilterFolding.Step
import QueryPlan.Proofs.FilteredJoins.Kept
import QueryPlan.Proofs.FilteredJoins.Pipeline
import QueryPlan.Proofs.Flattening.Chain
import QueryPlan.Proofs.Flattening.Columns
import QueryPlan.Proofs.Flattening.Inputs
import QueryPlan.Proofs.Flattening.Levels
import QueryPlan.Proofs.Flattening.Places
import QueryPlan.Proofs.Flattening.References
import QueryPlan.Proofs.Flattening.Retirement
import QueryPlan.Proofs.Flattening.Step
import QueryPlan.Proofs.Flattening.Success
import QueryPlan.Proofs.LiveOrder.Insertion
import QueryPlan.Proofs.LiveOrder.Pipeline
import QueryPlan.Proofs.LiveOrder.Removal
import QueryPlan.Proofs.Marks.Fusion
import QueryPlan.Proofs.Marks.Groupings
import QueryPlan.Proofs.Marks.Nops
import QueryPlan.Proofs.Marks.Operands
import QueryPlan.Proofs.Marks.Passes
import QueryPlan.Proofs.Marks.Targets
import QueryPlan.Proofs.Marks.View
import QueryPlan.Proofs.Meaning.ChainFusion
import QueryPlan.Proofs.Meaning.Conjuncts
import QueryPlan.Proofs.Meaning.Copies
import QueryPlan.Proofs.Meaning.Expr
import QueryPlan.Proofs.Meaning.Flattening
import QueryPlan.Proofs.Meaning.Fusion
import QueryPlan.Proofs.Meaning.Grouping
import QueryPlan.Proofs.Meaning.Joins
import QueryPlan.Proofs.Meaning.Pruning
import QueryPlan.Proofs.Meaning.Rows
import QueryPlan.Proofs.Meaning.Selection
import QueryPlan.Proofs.Numbering.Building
import QueryPlan.Proofs.Numbering.Documents
import QueryPlan.Proofs.Numbering.Growth
import QueryPlan.Proofs.Numbering.Nesting
import QueryPlan.Proofs.Numbering.Passes
import QueryPlan.Proofs.Numbering.Pipeline
import QueryPlan.Proofs.Numbering.Reading
import QueryPlan.Proofs.Operator.Layout
import QueryPlan.Proofs.Operator.Traversal
import QueryPlan.Proofs.Outcome
import QueryPlan.Proofs.Plan.Arrangement
import QueryPlan.Proofs.Plan.Cycles
import QueryPlan.Proofs.Plan.Edits
import QueryPlan.Proofs.Plan.Loops
import QueryPlan.Proofs.Plan.Paths
import QueryPlan.Proofs.Plan.Redirection
import QueryPlan.Proofs.Plan.Renaming
import QueryPlan.Proofs.Plan.Resolution
import QueryPlan.Proofs.Plan.Uses
import QueryPlan.Proofs.Plan.WellFormed
import QueryPlan.Proofs.Plan.Width
import QueryPlan.Proofs.Pruning.Kept
import QueryPlan.Proofs.Pruning.Mappings
import QueryPlan.Proofs.Pruning.References
import QueryPlan.Proofs.Pruning.Remaining
import QueryPlan.Proofs.Pruning.Usage
import QueryPlan.Proofs.Pruning.Visits
import QueryPlan.Proofs.Query
import QueryPlan.Proofs.RedundantSorts.Equivalence
import QueryPlan.Proofs.RedundantSorts.Exactness
import QueryPlan.Proofs.RedundantSorts.Neighbours
import QueryPlan.Proofs.RedundantSorts.Order
import QueryPlan.Proofs.RedundantSorts.Removal
import QueryPlan.Proofs.RedundantSorts.Step
import QueryPlan.Proofs.RedundantSorts.Traces
import QueryPlan.Proofs.RedundantSorts.Values
import QueryPlan.Proofs.Scope.Binding
import QueryPlan.Proofs.Scope.Bypass
import QueryPlan.Proofs.Scope.ChainWalk
import QueryPlan.Proofs.Scope.Chains
import QueryPlan.Proofs.Scope.Cursors
import QueryPlan.Proofs.Scope.Distinct
import QueryPlan.Proofs.Scope.Entries
import QueryPlan.Proofs.Scope.Fusion
import QueryPlan.Proofs.Scope.PassThrough
import QueryPlan.Proofs.Scope.Pipeline
import QueryPlan.Proofs.Scope.Positions
import QueryPlan.Proofs.Scope.Pruning
import QueryPlan.Proofs.Scope.Reading
import QueryPlan.Proofs.Scope.Removal
import QueryPlan.Proofs.Scope.Repositioning
import QueryPlan.Proofs.Scope.Windows
import QueryPlan.Proofs.Separation.Halves
import QueryPlan.Proofs.Separation.Inlining
import QueryPlan.Proofs.Separation.Remaining
import QueryPlan.Proofs.Separation.Undone
import QueryPlan.Proofs.Shape.Conditions
import QueryPlan.Proofs.Shape.Flattening
import QueryPlan.Proofs.Shape.Names
import QueryPlan.Proofs.Shape.Pipeline
import QueryPlan.Proofs.Shape.Projections
import QueryPlan.Proofs.Shape.Removal
import QueryPlan.Proofs.Success.Flattening
import QueryPlan.Proofs.Success.Fusion
import QueryPlan.Proofs.Success.Lookups
import QueryPlan.Proofs.Success.Pipeline
import QueryPlan.Proofs.Success.Positions
import QueryPlan.Proofs.Success.Pruning
import QueryPlan.Proofs.Success.Removal
import QueryPlan.Proofs.Success.Validity
import QueryPlan.Proofs.Success.Windows
import QueryPlan.Proofs.Validity.Exactness
import QueryPlan.Proofs.WindowNarrowing.Exactness
import QueryPlan.Proofs.WindowNarrowing.Step
import QueryPlan.Query
import QueryPlan.Settings
import QueryPlan.SqlType

import FormulaSql.Analysis.Contents
import FormulaSql.Analysis.Dimensions
import FormulaSql.Analysis.Grouping
import FormulaSql.Calendar
import FormulaSql.CommandLine.Arguments
import FormulaSql.CommandLine.Listing
import FormulaSql.CommandLine.Run
import FormulaSql.DataType
import FormulaSql.Dialect
import FormulaSql.Error
import FormulaSql.Formula.Basic
import FormulaSql.Formula.Build
import FormulaSql.Formula.Equality
import FormulaSql.Formula.Json
import FormulaSql.Formula.Path
import FormulaSql.Formula.Recursion
import FormulaSql.Formula.Text
import FormulaSql.Formula.Transform
import FormulaSql.Function.Aggregations
import FormulaSql.Function.Arguments
import FormulaSql.Function.Arrays
import FormulaSql.Function.Catalogue
import FormulaSql.Function.Dates
import FormulaSql.Function.Definition
import FormulaSql.Function.Dispatch
import FormulaSql.Function.Logic
import FormulaSql.Function.Lookups
import FormulaSql.Function.Mathematics
import FormulaSql.Function.Operators
import FormulaSql.Function.Texts
import FormulaSql.Function.TimeUnit
import FormulaSql.Function.Windows
import FormulaSql.Json.Basic
import FormulaSql.Json.Names
import FormulaSql.Json.Reader
import FormulaSql.Json.Record
import FormulaSql.Json.Token
import FormulaSql.Literal
import FormulaSql.Lowering
import FormulaSql.Main
import FormulaSql.NameSet
import FormulaSql.Normalize.LaterFilters
import FormulaSql.Normalize.LevelOfDetail
import FormulaSql.Normalize.LevelTags
import FormulaSql.Normalize.Lookups
import FormulaSql.Normalize.Windows
import FormulaSql.Number.Double
import FormulaSql.Number.Shortest
import FormulaSql.Proofs.Data.Lists
import FormulaSql.Proofs.Data.Outcomes
import FormulaSql.Proofs.Formula.Children
import FormulaSql.Proofs.Formula.Nodes
import FormulaSql.Proofs.Formula.Outline
import FormulaSql.Proofs.Formula.Paths
import FormulaSql.Proofs.Formula.Positions
import FormulaSql.Proofs.Formula.Replacing
import FormulaSql.Proofs.Formula.Rewriting
import FormulaSql.Proofs.Function.Catalogue
import FormulaSql.Proofs.Function.CommonType
import FormulaSql.Proofs.Function.Dispatch
import FormulaSql.Proofs.Function.Grades
import FormulaSql.Proofs.Function.Patterns
import FormulaSql.Proofs.Function.Writers
import FormulaSql.Proofs.Json.Abridged
import FormulaSql.Proofs.Json.Dates
import FormulaSql.Proofs.Json.Exactness
import FormulaSql.Proofs.Json.Formulas
import FormulaSql.Proofs.Json.Text
import FormulaSql.Proofs.Lowering.BranchOrder
import FormulaSql.Proofs.Lowering.Constness
import FormulaSql.Proofs.Lowering.Firming
import FormulaSql.Proofs.Lowering.Nodes
import FormulaSql.Proofs.Lowering.Outcomes
import FormulaSql.Proofs.Normalize.LaterFilters
import FormulaSql.Proofs.Normalize.LevelTags
import FormulaSql.Proofs.Query.Acceptance
import FormulaSql.Proofs.Query.AggregationForks
import FormulaSql.Proofs.Query.Apart
import FormulaSql.Proofs.Query.BoundFields
import FormulaSql.Proofs.Query.Compile
import FormulaSql.Proofs.Query.Contexts
import FormulaSql.Proofs.Query.DimensionNames
import FormulaSql.Proofs.Query.ForkDimensions
import FormulaSql.Proofs.Query.GroupStates
import FormulaSql.Proofs.Query.Grouping
import FormulaSql.Proofs.Query.Heads
import FormulaSql.Proofs.Query.Inert
import FormulaSql.Proofs.Query.Keeping
import FormulaSql.Proofs.Query.LevelForks
import FormulaSql.Proofs.Query.Levels
import FormulaSql.Proofs.Query.LookupUnits
import FormulaSql.Proofs.Query.Lookups
import FormulaSql.Proofs.Query.NormalForm
import FormulaSql.Proofs.Query.NumberedAliases
import FormulaSql.Proofs.Query.Offers
import FormulaSql.Proofs.Query.Orderings
import FormulaSql.Proofs.Query.Passes
import FormulaSql.Proofs.Query.Positions
import FormulaSql.Proofs.Query.Registry
import FormulaSql.Proofs.Query.Regular
import FormulaSql.Proofs.Query.Resting
import FormulaSql.Proofs.Query.Rules
import FormulaSql.Proofs.Query.Simplification
import FormulaSql.Proofs.Query.Stability
import FormulaSql.Proofs.Query.Stages
import FormulaSql.Proofs.Query.TopLevel
import FormulaSql.Proofs.Query.Totals
import FormulaSql.Proofs.Query.WindowCalls
import FormulaSql.Proofs.Simplify.Blocks
import FormulaSql.Proofs.Simplify.Branches
import FormulaSql.Proofs.Simplify.Ending
import FormulaSql.Proofs.Simplify.Folding
import FormulaSql.Proofs.Simplify.Heirs
import FormulaSql.Proofs.Simplify.Lowered
import FormulaSql.Proofs.Simplify.Meaning
import FormulaSql.Proofs.Simplify.Nulls
import FormulaSql.Proofs.Simplify.Pruning
import FormulaSql.Proofs.Simplify.Reading
import FormulaSql.Proofs.Simplify.Settling
import FormulaSql.Proofs.Simplify.Shrinking
import FormulaSql.Proofs.Simplify.Soundness
import FormulaSql.Proofs.Simplify.Styles
import FormulaSql.Proofs.Simplify.Verdicts
import FormulaSql.Proofs.Split.Aliases
import FormulaSql.Proofs.Split.Columns
import FormulaSql.Proofs.Split.Compatibility
import FormulaSql.Proofs.Split.Connection
import FormulaSql.Proofs.Split.Consistency
import FormulaSql.Proofs.Split.Counting
import FormulaSql.Proofs.Split.Coverage
import FormulaSql.Proofs.Split.Crop
import FormulaSql.Proofs.Split.CutDown
import FormulaSql.Proofs.Split.Disjoint
import FormulaSql.Proofs.Split.Exposure
import FormulaSql.Proofs.Split.Extras
import FormulaSql.Proofs.Split.Failure
import FormulaSql.Proofs.Split.Feasible
import FormulaSql.Proofs.Split.Fields
import FormulaSql.Proofs.Split.Filters
import FormulaSql.Proofs.Split.Graded
import FormulaSql.Proofs.Split.Groups
import FormulaSql.Proofs.Split.Handing
import FormulaSql.Proofs.Split.Hosting
import FormulaSql.Proofs.Split.Incompatible
import FormulaSql.Proofs.Split.JoinScope
import FormulaSql.Proofs.Split.Joins
import FormulaSql.Proofs.Split.Leftover
import FormulaSql.Proofs.Split.Mixing
import FormulaSql.Proofs.Split.Names
import FormulaSql.Proofs.Split.Nesting
import FormulaSql.Proofs.Split.Plain
import FormulaSql.Proofs.Split.Plan
import FormulaSql.Proofs.Split.Progress
import FormulaSql.Proofs.Split.References
import FormulaSql.Proofs.Split.Regrouping
import FormulaSql.Proofs.Split.Rounds
import FormulaSql.Proofs.Split.Scope
import FormulaSql.Proofs.Split.Sharing
import FormulaSql.Proofs.Split.Sites
import FormulaSql.Proofs.Split.Stranded
import FormulaSql.Proofs.Split.Validity
import FormulaSql.Proofs.Sql.Precedence
import FormulaSql.Proofs.Sql.Quoting
import FormulaSql.Proofs.Statement.Aliases
import FormulaSql.Proofs.Statement.Clauses
import FormulaSql.Proofs.Statement.Conditions
import FormulaSql.Proofs.Statement.Rendering
import FormulaSql.Proofs.Text.Case
import FormulaSql.Query.Basic
import FormulaSql.Query.Compile
import FormulaSql.Query.Error
import FormulaSql.Query.IndexedRegistry
import FormulaSql.Query.Json
import FormulaSql.Query.Pipeline
import FormulaSql.Query.Registry
import FormulaSql.Query.Spec
import FormulaSql.Simplify.Branches
import FormulaSql.Simplify.Constants
import FormulaSql.Simplify.Optimize
import FormulaSql.Split.Base
import FormulaSql.Split.Crop
import FormulaSql.Split.Groups
import FormulaSql.Split.Mask
import FormulaSql.Split.Rounds
import FormulaSql.Sql.Basic
import FormulaSql.Sql.Json
import FormulaSql.Sql.Text
import FormulaSql.Statement.Aliases
import FormulaSql.Statement.Basic
import FormulaSql.Statement.Build
import FormulaSql.Statement.Json
import FormulaSql.Statement.Text
import FormulaSql.Text.Blank
import FormulaSql.Text.Case
import FormulaSql.Text.CaseTable
import FormulaSql.Text.Quoted
import FormulaSql.Text.UnshownTable
import FormulaSql.Text.Uuid

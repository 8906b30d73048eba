import FormulaSql.Analysis.Grouping
import FormulaSql.Normalize.LaterFilters
import FormulaSql.Normalize.LevelOfDetail
import FormulaSql.Normalize.LevelTags
import FormulaSql.Normalize.Lookups
import FormulaSql.Normalize.Windows
import FormulaSql.Query.Basic
import FormulaSql.Simplify.Optimize

/-!
# Preparing queries

What happens to the formulas of a query between compiling it and cutting it up, stage by stage. A
stage looks at the whole query, mostly at its dimensions, and then changes the formulas.
-/

namespace FormulaSql

namespace Pipeline

/-- One stage of the preparation. -/
abbrev Stage := Query → Except QueryError Query

/-- Applies the rules to every formula. -/
def applyRules (q : Query) (rules : List Rule) : Query :=
  q.mapFormulas fun _ f => f.transformAll rules

/-- Gives window calls their ordering and grouping, and lookups their filters. -/
def prepare (ordering : List Formula) : Stage := fun q =>
  .ok (applyRules q
    [Normalize.defaultOrdering ordering, Normalize.lookupFilters,
     Normalize.amongToWithin q.dimensions, Normalize.dropExtraWithin q.dimensions])

/-- Simplifies formulas, filters by more rules than the others. -/
def optimize (s : Settings) : Stage := fun q =>
  if s.disableOptimizations then .ok q
  else .ok (q.mapFormulas fun p f =>
    if p == .filters then f.optimizeFilter s.dialect else f.optimize s.dialect)

/-- The dialects that do not group by constants; there are none so far. -/
def withoutConstantGroups : Dialects := .empty

/-- Drops constants from GROUP BY for some dialects. -/
def dropConstantGroups (applicable dialect : Dialects) : Stage := fun q =>
  if !dialect.isEmpty && applicable.contains dialect then
    .ok { q with groupBy := q.groupBy.filter fun e => !e.formula.isBoundOnlyTo [] }
  else .ok q

/-- Drops filters that hold anyway. -/
def dropTrueFilters : Stage := fun q =>
  .ok { q with filters := q.filters.filter fun e => !Simplify.isTrue e.formula }

/-- The formula means nothing in a row of totals. -/
def isBeyondTotals (dims : List Formula) (f : Formula) : Bool :=
  f.containsLookup || f.containsExtended true || f.isInconsistent dims || f.containsWindow

/-- Puts NULL for formulas that mean nothing in a row of totals. -/
def nullifyTotals : Stage := fun q =>
  if q.type == .totals then
    .ok (q.mapFormulas fun _ f =>
      if isBeyondTotals q.dimensions f then .mk (.literal .null) f.notes else f)
  else .ok q

/-- Checks the dimensions of all aggregations at the top of formulas. -/
def checkTopLevel (q : Query) : Except QueryError Unit :=
  (q.entries.forM fun e => Normalize.checkTopLevel e.2.formula q.dimensions).mapError
    fun e => .formulas [e]

/-- Turns lookups, aggregations at their own dimensions and window calls into forks. -/
def makeForks (s : Settings) : Stage := fun q => do
  let dims := q.dimensions
  let hasLookups := q.anyFormula Formula.containsLookup
  let hasExtended := q.anyFormula fun f => f.containsExtended true
  let hasWindows := q.anyFormula Formula.containsWindow
  if hasExtended && !s.allowAnyTopLevelDimensions then checkTopLevel q
  let lookups := if hasLookups then [Normalize.lookups dims s.allowEmptyDimensions] else []
  let levels := if hasExtended || hasWindows then [Normalize.levelOfDetail dims] else []
  let windows := if hasWindows then [Normalize.windowForks dims] else []
  return applyRules q (lookups ++ levels ++ windows)

/-- Gives window calls and forks the full set of filters that come later. -/
def normalizeFilters : Stage := fun q =>
  .ok (applyRules q [Normalize.laterFilters q.filterIds])

def tagLevels : Stage := fun q => .ok (applyRules q [Normalize.levelTags])

/-- The stages in order. -/
def stages (s : Settings) (ordering : List Formula) : List Stage :=
  [prepare ordering, optimize s, dropConstantGroups withoutConstantGroups s.dialect,
   dropTrueFilters, nullifyTotals, makeForks s, normalizeFilters, tagLevels]

end Pipeline

/-- Runs all stages. -/
def Query.process (q : Query) (s : Settings) (ordering : List Formula) : Except QueryError Query :=
  (Pipeline.stages s ordering).foldlM (fun q stage => stage q) q

end FormulaSql

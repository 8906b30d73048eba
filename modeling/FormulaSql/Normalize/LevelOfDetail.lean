import FormulaSql.Analysis.Dimensions
import FormulaSql.Formula.Build
import FormulaSql.Formula.Text
import FormulaSql.Formula.Transform

/-!
# Levels of detail as forks

An aggregation that is not computed at the dimensions of its surroundings becomes a fork: a
sub-query at its own dimensions, joined on those that both sides have. Nothing is aggregated above
a fork, so an aggregation of such a value becomes a fork as well.
-/

namespace FormulaSql.Normalize

/-- Every formula of the first list is in the second. -/
def allIn (sub sup : List Formula) : Bool := sub.all sup.contains

/-- The node is the result of the fork just above it. -/
def isForkResult (above : List Formula) (f : Formula) : Bool :=
  match above.getLast?.bind Formula.fork? with
  | some q => q.result == f
  | none => false

/-- An aggregation stands above, with no fork between. -/
def insideAggregation (above : List Formula) : Bool :=
  (above.reverse.takeWhile fun a => !a.isFork).any Formula.isAggregateCall

/-- The aggregation needs a sub-query of its own. -/
def needsFork (above : List Formula) (c : Call Formula) : Bool :=
  !c.lod.isInherited || !c.beforeFilterBy.isEmpty || insideAggregation above ||
    c.args.any fun a => a.containsFork || a.containsExtended true

/-- Puts aggregations into forks. -/
def levelOfDetail (dims : List Formula) : Rule := fun above f =>
  match f.kind with
  | .call c =>
    if f.isAggregateCall && !isForkResult above f && needsFork above c then
      let outer := Formula.contextDimensions dims above
      let own := c.lod.resolve outer
      if !allIn outer own && !allIn own outer then
        some (.error ("Incompatible dimensions in LOD expression " ++ f.text)
          ErrorCode.incompatibleDimensions)
      else
        some (.of (.fork
          { joinType := .left
            result := .mk (.call { c with lod := .inherited }) f.notes
            joining := (own.filter outer.contains).map .same
            lod := .fixed own
            beforeFilterBy := c.beforeFilterBy
            shifts := [] }))
    else none
  | _ => none

/-- The aggregations at the top of a formula use dimensions of the query only. -/
def checkTopLevel (f : Formula) (dims : List Formula) : Except FormulaError Unit :=
  if allIn (f.topLevelDimensions dims) dims then .ok ()
  else .error (.topLevelDimensions "Invalid top-level LOD dimension found in expression")

end FormulaSql.Normalize

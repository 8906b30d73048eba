import FormulaSql.Analysis.Contents
import FormulaSql.Formula.Text

/-!
# How formulas stand to the grouping of a query

A query with dimensions computes one row for each group. A formula may use the dimensions and
aggregations freely, but not mix aggregations with fields that are neither aggregated nor
dimensions.
-/

namespace FormulaSql

/-- How a formula stands to the grouping. -/
inductive GroupState where
  | constant
  /-- Made of dimensions only. -/
  | dimension
  | aggregated
  /-- Uses fields that are not dimensions, row by row. -/
  | unaggregated
  deriving DecidableEq, Repr

namespace GroupState

/-- The state of an expression with parts in these states; `none` if they do not go together. -/
def combine (states : List GroupState) : Option GroupState :=
  if states.contains aggregated && states.contains unaggregated then none
  else if states.contains aggregated then some aggregated
  else if states.contains unaggregated then some unaggregated
  else if states.contains dimension then some dimension
  else some constant

end GroupState

namespace Formula

/-- The state of a formula under the given dimensions, or the rule it breaks. Aggregations inside
aggregations are an error unless `nested` is set. -/
def groupState (f : Formula) (dims : List Formula) (nested : Bool) :
    Except ValidationError GroupState :=
  let check : Bool → Except ValidationError GroupState := f.recur fun f k inside =>
    if dims.contains f then .ok .dimension
    else
      match k with
      | .literal _ => .ok .constant
      | .field _ => .ok .unaggregated
      | .fork _ => .ok .aggregated
      | .window w => do
        let _ ← w.args.mapM (· inside)
        return .aggregated
      | k =>
        if f.isAggregateCall then
          if inside && !nested then .error (.doubleAggregation f.text)
          else do
            let _ ← k.autonomous.mapM (· true)
            return .aggregated
        else do
          let states ← k.autonomous.mapM (· inside)
          match GroupState.combine states with
          | some s => return s
          | none =>
            if inside then return .aggregated else .error (.inconsistentAggregation f.text)
  check false

/-- The formula mixes aggregations with fields that are not aggregated. -/
def isInconsistent (f : Formula) (dims : List Formula) : Bool :=
  match f.groupState dims true with
  | .error (.inconsistentAggregation _) => true
  | _ => false

end Formula

end FormulaSql

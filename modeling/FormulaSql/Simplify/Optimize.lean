import FormulaSql.Simplify.Branches

/-!
# Simplified formulas

All rules together, applied until nothing changes.
-/

namespace FormulaSql

namespace Simplify

/-- The rules that are good for any formula. -/
def rules (dialect : Dialects) : List Rule :=
  [arithmetic, doubleAggregation, comparison, connective, test dialect, conditional]

/-- The rules that are good for a formula of which only the truth value counts. -/
def filterRules (dialect : Dialects) : List Rule := zeroOne :: rules dialect

end Simplify

namespace Formula

/-- The simplified formula. -/
def optimize (f : Formula) (dialect : Dialects) : Formula :=
  settle (Simplify.rules dialect) maxRounds f

/-- The simplified filter. -/
def optimizeFilter (f : Formula) (dialect : Dialects) : Formula :=
  settle (Simplify.filterRules dialect) maxRounds f

/-- The errors recorded in a formula, outermost first. -/
def errors (f : Formula) : List FormulaError :=
  f.nodes.filterMap fun g =>
    match g.kind with
    | .error message code => some (.ofNode code message)
    | _ => none

end Formula

end FormulaSql

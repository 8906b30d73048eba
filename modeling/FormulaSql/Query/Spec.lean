import FormulaSql.Dialect
import FormulaSql.Formula.Basic

/-!
# What is asked for

The description of a query before it is compiled, and the settings for compiling it.
-/

namespace FormulaSql

inductive QueryType where
  | normal
  | totals
  | subtotals
  deriving DecidableEq, Repr

/-- A formula of a query. -/
structure SpecItem where
  formula : Formula
  /-- The field the formula was made for; filters are named by it. -/
  fieldId : Option String
  aliasName : Option String

/-- A condition that joins one avatar to another. -/
structure SpecJoin where
  formula : Formula
  leftId : String
  rightId : String
  joinType : JoinType

structure QuerySpec where
  select : List SpecItem
  groupBy : List SpecItem
  filters : List SpecItem
  orderBy : List SpecItem
  joinOn : List SpecJoin
  type : QueryType
  /-- The ordering of window calls that have none of their own. -/
  defaultOrdering : List Formula

def QuerySpec.empty : QuerySpec := ⟨[], [], [], [], [], .normal, []⟩

structure Settings where
  dialect : Dialects
  /-- Formulas are taken as they are. -/
  disableOptimizations : Bool
  /-- Lookups are allowed in queries without dimensions. -/
  allowEmptyDimensions : Bool
  /-- Aggregations at the top may use dimensions that the query does not group by. -/
  allowAnyTopLevelDimensions : Bool
  deriving DecidableEq

/-- Settings for a dialect, everything else off. -/
def Settings.forDialect (dialect : Dialects) : Settings := ⟨dialect, false, false, false⟩

def Settings.default : Settings := forDialect .dummy

end FormulaSql

import FormulaSql.Formula.Path
import FormulaSql.Formula.Transform
import FormulaSql.Query.Basic

/-!
# Plans for cutting a query

A query is cut along its forks. The plan for one sub-query is a mask: the nodes that it computes,
the further expressions it selects, the filters it applies, and how it is joined to the others.
-/

namespace FormulaSql.Split

/-! ## Names -/

/-- Supplies for the names of columns and of sub-queries. -/
structure Names where
  columns : NameSupply
  queries : NameSupply

def Names.start : Names := ⟨.start "_cp", .start "q"⟩

/-- A step that takes new names. -/
abbrev Naming := StateM Names

def freshColumn : Naming String := fun names =>
  let (n, columns) := names.columns.take
  (n, { names with columns })

def freshQuery : Naming String := fun names =>
  let (n, queries) := names.queries.take
  (n, { names with queries })

/-! ## Masks -/

/-- One cut in one formula: the node at `outer` becomes a column, and the sub-query computes it
from the node at `inner`. -/
structure Cut where
  part : Part
  index : Nat
  outer : Path
  inner : Path
  aliasName : String
  deriving DecidableEq

/-- A further expression that a sub-query selects: a dimension, or what a join needs. -/
structure Extra where
  aliasName : String
  expr : Formula
  sourceIds : NameSet
  isGroupBy : Bool

/-- The plan of one sub-query. -/
structure Mask where
  queryId : String
  /-- It was made for window calls alone. -/
  isWindow : Bool
  cuts : List Cut
  extras : List Extra
  /-- The positions of the filters it applies, in ascending order. -/
  filterIndices : List Nat
  /-- Filters it applies in a changed form. -/
  addFilters : List Entry
  joinType : Option JoinType
  joining : List (JoinCondition Formula)
  /-- The others are joined to it. -/
  isBase : Bool

/-- The alias under which an expression is selected. -/
def aliasIn (extras : List Extra) (f : Formula) : Option String :=
  (extras.find? fun x => x.expr == f).map Extra.aliasName

namespace Mask

/-- The expressions that the sub-query groups by. -/
def groupByExprs (m : Mask) : List Formula := (m.extras.filter Extra.isGroupBy).map Extra.expr

/-- All join conditions compare an expression with itself. -/
def joinsDirectly (m : Mask) : Bool :=
  m.joining.all fun
    | .same _ => true
    | .pair _ _ => false

/-- The columns of the sub-query, each once. -/
def columns (m : Mask) : List String :=
  (m.cuts.map Cut.aliasName ++ m.extras.map Extra.aliasName).eraseDups

end Mask

/-- The positions of the filters that are cut. -/
def cutFilters (cuts : List Cut) : List Nat :=
  (cuts.filter fun c => c.part == .filters).map Cut.index

/-- The two lists have the same members. -/
def sameMembers {α : Type} [BEq α] (xs ys : List α) : Bool :=
  xs.all ys.contains && ys.all xs.contains

/-! ## Columns in formulas -/

/-- A column in the place of a node. -/
def columnAt (old : Formula) (aliasName : String) : Formula := .mk (.field aliasName) old.notes

/-- The formula with a column wherever an expression has one. -/
def withColumns (alias? : Formula → Option String) (f : Formula) : Formula :=
  f.transform fun _ g => (alias? g).map (columnAt g)

/-- The formula with a column for every occurrence of one expression. -/
def withColumn (f target : Formula) (aliasName : String) : Formula :=
  withColumns (fun g => if g == target then some aliasName else none) f

end FormulaSql.Split

import FormulaSql.Function.Arguments

/-!
# Aggregations

Functions that make one value out of the rows of a group.
-/

namespace FormulaSql.Function

open TypeFamily Emit

/-- An aggregation of one value. -/
def aggregation (name : String) (argTypes : List ArgTypes) (returns : ReturnType)
    (variants : List Variant) : Definition :=
  { name, argNames := ["value"], arity := .exact 1, category := .aggregation
    argTypes, returns, variants }

/-- The average of dates, taken on seconds since the epoch. -/
def averageDate : Writer := fun args => do
  return .func "TO_TIMESTAMP"
    [.func "AVG" [.func "EXTRACT" [.raw ("EPOCH FROM " ++ (← arg args 0).text)]]]

def averageDateClickhouse : Writer := fun args => do
  return .func "toDateTime" [.func "avg" [.func "toUnixTimestamp" [← arg args 0]]]

/-- `COUNT` of the argument, or of all rows without one. -/
def countRows : Writer := fun args =>
  if args.isEmpty then .ok (.func "COUNT" [.raw "*"]) else call "COUNT" args

def countDistinct : Writer := fun args => .ok (.distinctFunc "COUNT" (exprs args))

def medianWithinGroup : Writer := fun args => do
  return .raw ("PERCENTILE_CONT(0.5) WITHIN GROUP (ORDER BY " ++ (← arg args 0).text ++ ")")

/-- An aggregation of the first argument where the second one holds. -/
def aggregateWhere (name : String) : Writer := fun args => do
  let value ← arg args 0
  return .func name [.caseOf none [(← arg args 1, value)] none]

/-- The number of rows where the argument holds. -/
def countWhere : Writer := fun args => do
  return .func "COUNT" [.caseOf none [(← arg args 0, .int 1)] none]

/-- An aggregation of a value where a condition holds. -/
def conditionalAggregation (name : String) (returns : ReturnType) (variants : List Variant) :
    Definition :=
  { aggregation name [.sequence [numbers, booleans]] returns variants with
    argNames := ["expression", "condition"], arity := .exact 2 }

def aggregations : List Definition :=
  [aggregation "sum" [.forAll numbers] (.ofArg 0) [.forAny (call "SUM")],
   aggregation "avg" [.forAll numbers] (.fixed (.plain .float)) [.forAny (call "AVG")],
   { aggregation "avg" [.forAll datelike] (.ofArgWithParams 0)
       [⟨.dummy ||| .postgresql, averageDate⟩, .forClickhouse averageDateClickhouse] with
     priority := 1 },
   aggregation "min" [.forAll ordered] (.ofArgWithParams 0) [.forAny (call "MIN")],
   aggregation "max" [.forAll ordered] (.ofArgWithParams 0) [.forAny (call "MAX")],
   { aggregation "count" [.forAll every] (.fixed (.plain .integer)) [.forAny countRows] with
     arity := .range 0 1 },
   aggregation "countd" [.forAll every] (.fixed (.plain .integer))
     [.baseline countDistinct, .forClickhouse (call "uniqExact")],
   aggregation "median" [.forAll numbers] (.fixed (.plain .float))
     [⟨.dummy ||| .postgresql, medianWithinGroup⟩, .forClickhouse (call "quantileExact(0.5)")],
   conditionalAggregation "sum_if" (.ofArg 0)
     [.baseline (aggregateWhere "SUM"), .forClickhouse (call "sumIf")],
   conditionalAggregation "avg_if" (.fixed (.plain .float))
     [.baseline (aggregateWhere "AVG"), .forClickhouse (call "avgIf")],
   { aggregation "count_if" [.forAll booleans] (.fixed (.plain .integer))
       [.baseline countWhere, .forClickhouse (call "countIf")] with
     argNames := ["condition"] }]

end FormulaSql.Function

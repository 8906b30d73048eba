import FormulaSql.Function.Arguments

/-!
# Window functions

A writer gives the function with its frame and with the ordering that follows from its arguments.
Partitions and other orderings are those of the call.
-/

namespace FormulaSql.Function

open TypeFamily Emit

def invalidParam {α : Type} (message : String) : Except FormulaError α :=
  .error (.unsupportedNode message)

/-- A function over a frame of the window. -/
def framed (f : Sql) (frame : Option Frame) : Sql := .windowed f [] [] frame

/-- An aggregation over the whole window. -/
def wholeWindow (name : String) : Writer := fun args =>
  .ok (framed (.func name (exprs args)) (some .full))

def countWindow : Writer := fun args =>
  if args.isEmpty then .ok (framed (.func "COUNT" [.raw "*"]) (some .full))
  else wholeWindow "COUNT" args

/-- The lower-case direction at the second position, or the given one. -/
def directionArg (args : List TypedSql) (default : String) : Except FormulaError String :=
  match args[1]? with
  | none => .ok default
  | some a =>
    match a.sql.lowerText? with
    | some s => .ok s
    | none => invalidParam "direction must be a constant string"

/-! ## Running functions -/

/-- All rows up to the current one, or all from it on. -/
def stretchingFrame (args : List TypedSql) : Except FormulaError Frame := do
  match ← directionArg args "asc" with
  | "asc" => return .rows none (some 0)
  | "desc" => return .rows (some 0) none
  | other => invalidParam ("invalid value for direction parameter: " ++ other)

/-- A function of the first argument over a frame that the others give. -/
def overFrame (frame : List TypedSql → Except FormulaError Frame) (name : String) : Writer :=
  fun args => do
    let f ← frame args
    return framed (.func name [← arg args 0]) (some f)

/-! ## Moving functions -/

/-- The row count at a position. -/
def rowsArg (args : List TypedSql) (i : Nat) : Except FormulaError (Option Int64) :=
  match args[i]? with
  | none => .ok none
  | some a =>
    match a.sql.int? with
    | some n => .ok (some n)
    | none => invalidParam "row counts must be constant integers"

/-- A number without its sign. -/
def absolute (n : Int64) : Int64 := if n < 0 then -n else n

/-- The current row with a number of rows before it, after it if the number is negative, or with
two numbers on both sides. -/
def movingFrame (args : List TypedSql) : Except FormulaError Frame := do
  match ← rowsArg args 1 with
  | none => invalidParam "missing row count"
  | some first =>
    match ← rowsArg args 2 with
    | some second => return .rows (some (-absolute first)) (some (absolute second))
    | none =>
      if 0 ≤ first then return .rows (some (-first)) (some 0)
      else return .rows (some 0) (some (absolute first))

/-! ## Ranks and neighbours -/

/-- The ordering of a rank: by the value, greatest first unless another direction is given. -/
def rankOrder (args : List TypedSql) : Except FormulaError (List Sql) := do
  let descending ←
    match ← directionArg args "desc" with
    | "asc" | "ascending" => pure false
    | "desc" | "descending" => pure true
    | other => invalidParam ("invalid ranking direction: " ++ other)
  return [.ordered (← arg args 0) descending]

def ranking (name : String) : Writer := fun args => do
  return .windowed (.func name []) [] (← rankOrder args) none

/-- The value some rows back, or ahead for a negative offset. -/
def neighbour : Writer := fun args => do
  let offset ←
    match args[1]? with
    | none => pure 1
    | some a =>
      match a.sql.int? with
      | some n => pure n
      | none => invalidParam "offset must be a constant integer"
  let name := if offset < 0 then "LEAD" else "LAG"
  let default := args[2]?.toList.map TypedSql.sql
  return framed (.func name ([← arg args 0, .int (absolute offset)] ++ default)) none

/-- The value of the argument at an end of the window. -/
def endOfWindow (name : String) : Writer := fun args => do
  return framed (.func name [← arg args 0]) (some .full)

/-! ## Definitions -/

/-- A window function with one writer for all dialects. -/
def windowFunction (name : String) (argTypes : List ArgTypes) (returns : ReturnType)
    (emit : Writer) : Definition :=
  { name, argNames := ["value"], arity := .exact 1, category := .window, isWindow := true
    argTypes, returns
    variants := [.forAny emit] }

/-- A window function that depends on the order of rows. -/
def orderedFunction (name : String) (argTypes : List ArgTypes) (returns : ReturnType)
    (emit : Writer) : Definition :=
  { windowFunction name argTypes returns emit with usesDefaultOrdering := true }

/-- A function over the rows up to the current one. -/
def runningFunction (name : String) (values : List DataType) (returns : ReturnType)
    (function : String) : Definition :=
  { orderedFunction name [.sequence [values], .sequence [values, constStrings]] returns
      (overFrame stretchingFrame function) with
    argNames := ["value", "direction"], arity := .range 1 2 }

/-- A function over rows around the current one. -/
def movingFunction (name : String) (values : List DataType) (returns : ReturnType)
    (function : String) : Definition :=
  { orderedFunction name
      [.sequence [values, constIntegers], .sequence [values, constIntegers, constIntegers]] returns
      (overFrame movingFrame function) with
    argNames := ["value", "rows_1", "rows_2"], arity := .range 2 3 }

def rankFunction (name : String) (returns : BaseType) (function : String) : Definition :=
  { windowFunction name [.sequence [ordered], .sequence [ordered, constStrings]]
      (.fixed (.plain returns)) (ranking function) with
    argNames := ["value", "direction"], arity := .range 1 2 }

def windows : List Definition :=
  [windowFunction "sum" [.forAll numbers] (.ofArg 0) (wholeWindow "SUM"),
   windowFunction "avg" [.forAll numbers] (.fixed (.plain .float)) (wholeWindow "AVG"),
   windowFunction "min" [.forAll ordered] (.ofArg 0) (wholeWindow "MIN"),
   windowFunction "max" [.forAll ordered] (.ofArg 0) (wholeWindow "MAX"),
   { windowFunction "count" [.forAll every] (.fixed (.plain .integer)) countWindow with
     arity := .range 0 1 },
   runningFunction "rsum" numbers (.ofArg 0) "SUM",
   runningFunction "ravg" numbers (.fixed (.plain .float)) "AVG",
   runningFunction "rcount" every (.fixed (.plain .integer)) "COUNT",
   runningFunction "rmin" ordered (.ofArg 0) "MIN",
   runningFunction "rmax" ordered (.ofArg 0) "MAX",
   movingFunction "msum" numbers (.ofArg 0) "SUM",
   movingFunction "mavg" numbers (.fixed (.plain .float)) "AVG",
   movingFunction "mcount" every (.fixed (.plain .integer)) "COUNT",
   movingFunction "mmin" ordered (.ofArg 0) "MIN",
   movingFunction "mmax" ordered (.ofArg 0) "MAX",
   rankFunction "rank" .integer "RANK",
   rankFunction "rank_dense" .integer "DENSE_RANK",
   rankFunction "rank_unique" .integer "ROW_NUMBER",
   rankFunction "rank_percentile" .float "PERCENT_RANK",
   { orderedFunction "lag"
       [.sequence [every], .sequence [every, constIntegers],
        .sequence [every, constIntegers, every]] (.ofArg 0) neighbour with
     argNames := ["value", "offset", "default"], arity := .range 1 3 },
   orderedFunction "first" [.forAll every] (.ofArg 0) (endOfWindow "FIRST_VALUE"),
   orderedFunction "last" [.forAll every] (.ofArg 0) (endOfWindow "LAST_VALUE")]

end FormulaSql.Function

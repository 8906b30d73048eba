import FormulaSql.Function.Arguments

/-!
# Lookup functions

They read a measure at another date. No SQL is written for them: a formula is freed of lookups
before, and one that still stands there is an error.
-/

namespace FormulaSql.Function

open TypeFamily Emit

def neverWritten : Writer := fun _ =>
  .error (.unsupportedNode "lookup function must be converted to a query fork before translation")

/-- A function that reads its first argument elsewhere. -/
def lookup (name : String) : Definition :=
  { name, category := .lookup, returns := .ofArg 0, variants := [.forAny neverWritten] }

def lookups : List Definition :=
  [{ lookup "ago" with
     argNames := ["measure", "date_dimension", "unit", "number"], arity := .range 2 4
     argTypes :=
       [.sequence [every, datelike], .sequence [every, datelike, constStrings],
        .sequence [every, datelike, integers],
        .sequence [every, datelike, constStrings, integers]] },
   { lookup "at_date" with
     argNames := ["measure", "date_dimension", "date_expr"], arity := .exact 3
     argTypes := [.sequence [every, datelike, datelike]] }]

end FormulaSql.Function

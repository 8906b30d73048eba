import FormulaSql.Error

/-!
# Errors about queries
-/

namespace FormulaSql

inductive QueryError where
  /-- Formulas of the query that cannot be compiled. -/
  | formulas (errors : List FormulaError)
  | unknownAvatar (id : String)
  | duplicateAvatar (id : String)
  | duplicateField (id : String)
  /-- Nothing joins a table or sub-query to the others. -/
  | missingJoin (id : String)
  /-- A query selects from one that does not come before it. -/
  | unknownQuery (id : String)
  | splitLimitExceeded (rounds : Nat)
  /-- A query cannot be cut into sub-queries. -/
  | split (queryId message : String)
  | lowering (queryId : String) (cause : FormulaError)
  deriving DecidableEq

namespace QueryError

/-- A name in backquotes. -/
def quotedName (s : String) : String := "\x60" ++ s ++ "\x60"

def message : QueryError → String
  | formulas errors =>
    "failed to compile formulas: " ++
      "; ".intercalate (errors.map fun e => e.message ++ " (" ++ e.code ++ ")")
  | unknownAvatar id => "unknown avatar " ++ quotedName id
  | duplicateAvatar id => "avatar " ++ quotedName id ++ " is registered twice"
  | duplicateField id => "field " ++ quotedName id ++ " is registered twice"
  | missingJoin id => "no join condition connects " ++ quotedName id ++ " to the query"
  | unknownQuery id => "query " ++ quotedName id ++ " is referenced before it is defined"
  | splitLimitExceeded rounds =>
    "query splitting did not finish after " ++ toString rounds ++ " rounds"
  | split id message => "failed to split query " ++ quotedName id ++ ": " ++ message
  | lowering id cause => "failed to translate query " ++ quotedName id ++ ": " ++ cause.message

/-- The formula errors that an error carries. -/
def formulaErrors : QueryError → List FormulaError
  | formulas errors => errors
  | lowering _ cause => [cause]
  | _ => []

end QueryError

end FormulaSql

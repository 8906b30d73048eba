import FormulaSql.Statement.Basic

/-!
# The text of statements

The answer is one SELECT with the statements that it reads from in parentheses.
-/

namespace FormulaSql

def SelectItem.text (i : SelectItem) : String :=
  match i.aliasName with
  | some aliasName => i.sql.text ++ " AS \"" ++ aliasName ++ "\""
  | none => i.sql.text

def JoinType.keyword : JoinType → String
  | .left => "LEFT JOIN"
  | .inner => "JOIN"

namespace FromItem

/-- The text of a FROM item, the statement that it reads being written by `inner`. -/
def text (inner : String → Except QueryError String) : FromItem → Except QueryError String
  | table source aliasName => .ok ("\"" ++ source ++ "\" AS " ++ aliasName)
  | subquery queryId aliasName => do
    return "(" ++ (← inner queryId) ++ ") AS " ++ aliasName

end FromItem

def Join.text (inner : String → Except QueryError String) (j : Join) :
    Except QueryError String := do
  return " " ++ j.type.keyword ++ " " ++ (← j.source.text inner) ++ " ON " ++ j.condition.text

namespace Statement

/-- A clause, which is left out when it is empty. -/
def clause (keyword separator : String) (items : List Sql) : String :=
  if items.isEmpty then "" else keyword ++ separator.intercalate (items.map Sql.text)

/-- The clauses after the FROM clause. -/
def tail (s : Statement) : String :=
  clause " WHERE " " AND " s.rowFilters ++ clause " GROUP BY " ", " s.groupBy ++
    clause " HAVING " " AND " s.groupFilters ++ clause " ORDER BY " ", " s.orderBy

/-- The text of a statement, those that it reads being written by `inner`. -/
def text (inner : String → Except QueryError String) (s : Statement) :
    Except QueryError String := do
  let root ← s.root.text inner
  let joins ← s.joins.mapM (Join.text inner)
  return "SELECT " ++ ", ".intercalate (s.select.map SelectItem.text) ++ " FROM " ++ root ++
    String.join joins ++ s.tail

end Statement

namespace MultiStatement

/-- The text of the statement with this id, if statements nest at most `fuel` deep. -/
def textOf (m : MultiStatement) : Nat → String → Except QueryError String
  | 0, id => .error (.unknownQuery id)
  | fuel + 1, id =>
    match m.statement? id with
    | some s => s.text (m.textOf fuel)
    | none => .error (.unknownQuery id)

/-- The text of the answer. Statements nest no deeper than there are statements. -/
def text (m : MultiStatement) : Except QueryError String :=
  match m.top? with
  | some s => s.text (m.textOf m.statements.length)
  | none => .error (.unknownQuery "")

end MultiStatement

end FormulaSql

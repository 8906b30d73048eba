import FormulaSql.DataType
import FormulaSql.Formula.Basic
import FormulaSql.Query.Error
import FormulaSql.Sql.Text

/-!
# SELECT statements

The SQL form of queries. A statement reads from tables and from other statements, which are
written in its place.
-/

namespace FormulaSql

/-- A selected expression. -/
structure SelectItem where
  sql : Sql
  aliasName : Option String
  type : DataType

/-- A table or statement in a FROM clause. -/
inductive FromItem where
  | table (source aliasName : String)
  | subquery (queryId aliasName : String)
  deriving DecidableEq

structure Join where
  source : FromItem
  type : JoinType
  condition : Sql

structure Statement where
  id : String
  select : List SelectItem
  groupBy : List Sql
  /-- Conditions on rows, all of which hold. -/
  rowFilters : List Sql
  /-- Conditions on groups, all of which hold. -/
  groupFilters : List Sql
  orderBy : List Sql
  /-- What the joins are joined to. -/
  root : FromItem
  joins : List Join

namespace Statement

/-- The selected expression with this alias. -/
def item? (s : Statement) (aliasName : String) : Option SelectItem :=
  s.select.find? fun i => i.aliasName == some aliasName

/-- Everything in the FROM clause. -/
def froms (s : Statement) : List FromItem := s.root :: s.joins.map Join.source

end Statement

/-- Statements of which each reads from earlier ones only; the last one is the answer. -/
structure MultiStatement where
  statements : List Statement

namespace MultiStatement

def top? (m : MultiStatement) : Option Statement := m.statements.getLast?

/-- The first statement with this id. -/
def statement? (m : MultiStatement) (id : String) : Option Statement :=
  m.statements.find? fun s => s.id == id

end MultiStatement

end FormulaSql

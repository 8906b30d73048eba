import FormulaSql.Formula.Json
import FormulaSql.Sql.Json
import FormulaSql.Statement.Basic

/-!
# Statements in JSON form
-/

namespace FormulaSql

def SelectItem.toJson (i : SelectItem) : Json :=
  .obj ([("expression", i.sql.toJson)] ++ Json.present "alias" (i.aliasName.map .str) ++
    [("data_type", i.type.toJson)])

def FromItem.toJson : FromItem → Json
  | table source aliasName =>
    .obj [("type", .str "table"), ("source", .str source), ("alias", .str aliasName)]
  | subquery queryId aliasName =>
    .obj [("type", .str "subquery"), ("query_id", .str queryId), ("alias", .str aliasName)]

def Join.toJson (j : Join) : Json :=
  .obj [("from", j.source.toJson), ("join_type", j.type.toJson), ("condition", j.condition.toJson)]

def Statement.toJson (s : Statement) : Json :=
  let exprs (es : List Sql) : Json := .arr (es.map Sql.toJson)
  .obj [("id", .str s.id), ("select", .arr (s.select.map SelectItem.toJson)),
    ("group_by", exprs s.groupBy), ("where", exprs s.rowFilters), ("having", exprs s.groupFilters),
    ("order_by", exprs s.orderBy), ("root_from", s.root.toJson),
    ("joins", .arr (s.joins.map Join.toJson))]

/-- The statements under one name. -/
def MultiStatement.toJson (m : MultiStatement) : Json :=
  .obj [("queries", .arr (m.statements.map Statement.toJson))]

end FormulaSql

import FormulaSql.Formula.Json
import FormulaSql.Query.Basic
import FormulaSql.Query.Registry

/-!
# Queries in JSON form

Descriptions of queries, settings and registries are read and written; compiled queries are only
written.
-/

namespace FormulaSql

open Json (Manner members?)

namespace QueryType

def name : QueryType → String
  | normal => "normal"
  | totals => "totals"
  | subtotals => "subtotals"

def toJson (t : QueryType) : Json := .str t.name

def ofJson? (m : Manner) (j : Json) : Option QueryType := do
  match ← j.bareTag? m with
  | "normal" => some normal
  | "totals" => some totals
  | "subtotals" => some subtotals
  | _ => none

end QueryType

/-! ## Descriptions -/

namespace SpecItem

def toJson (i : SpecItem) : Json :=
  .obj ([("formula", i.formula.toJson)] ++ Json.present "field_id" (i.fieldId.map .str) ++
    Json.present "alias" (i.aliasName.map .str))

def ofJson? (m : Manner) (j : Json) : Option SpecItem := do
  let ms ← members? ["formula", "field_id", "alias"] j
  return ⟨← ms.required "formula" (Formula.ofJson? m), ← ms.maybe "field_id" Json.string?,
    ← ms.maybe "alias" Json.string?⟩

end SpecItem

namespace SpecJoin

def toJson (i : SpecJoin) : Json :=
  .obj [("formula", i.formula.toJson), ("left_id", .str i.leftId), ("right_id", .str i.rightId),
    ("join_type", i.joinType.toJson)]

def ofJson? (m : Manner) (j : Json) : Option SpecJoin := do
  let ms ← members? ["formula", "left_id", "right_id", "join_type"] j
  return ⟨← ms.required "formula" (Formula.ofJson? m), ← ms.required "left_id" Json.string?,
    ← ms.required "right_id" Json.string?,
    ← ms.optional "join_type" .inner (JoinType.ofJson? m)⟩

end SpecJoin

namespace QuerySpec

def toJson (s : QuerySpec) : Json :=
  let items (is : List SpecItem) : Json := .arr (is.map SpecItem.toJson)
  .obj [("select", items s.select), ("group_by", items s.groupBy), ("filters", items s.filters),
    ("order_by", items s.orderBy), ("join_on", .arr (s.joinOn.map SpecJoin.toJson)),
    ("query_type", s.type.toJson),
    ("default_ordering", .arr (s.defaultOrdering.map Formula.toJson))]

def ofJson? (m : Manner) (j : Json) : Option QuerySpec := do
  let ms ← members?
    ["select", "group_by", "filters", "order_by", "join_on", "query_type", "default_ordering"] j
  let items (name : String) : Option (List SpecItem) :=
    ms.optional name [] (Json.list? (SpecItem.ofJson? m))
  return ⟨← items "select", ← items "group_by", ← items "filters", ← items "order_by",
    ← ms.optional "join_on" [] (Json.list? (SpecJoin.ofJson? m)),
    ← ms.optional "query_type" .normal (QueryType.ofJson? m),
    ← ms.optional "default_ordering" [] (Json.list? (Formula.ofJson? m))⟩

end QuerySpec

namespace Settings

def toJson (s : Settings) : Json :=
  .obj [("dialect", s.dialect.toJson), ("disable_optimizations", .bool s.disableOptimizations),
    ("allow_empty_dimensions", .bool s.allowEmptyDimensions),
    ("allow_arbitrary_toplevel_lod_dimensions", .bool s.allowAnyTopLevelDimensions)]

def ofJson? (j : Json) : Option Settings := do
  let ms ← members? ["dialect", "disable_optimizations", "allow_empty_dimensions",
    "allow_arbitrary_toplevel_lod_dimensions"] j
  return ⟨← ms.optional "dialect" .dummy Dialects.ofJson?,
    ← ms.optional "disable_optimizations" false Json.bool?,
    ← ms.optional "allow_empty_dimensions" false Json.bool?,
    ← ms.optional "allow_arbitrary_toplevel_lod_dimensions" false Json.bool?⟩

end Settings

/-! ## Registries -/

namespace Avatar

def toJson (a : Avatar) : Json := .obj [("id", .str a.id), ("source", .str a.source)]

def ofJson? (j : Json) : Option Avatar := do
  let ms ← members? ["id", "source"] j
  return ⟨← ms.required "id" Json.string?, ← ms.required "source" Json.string?⟩

end Avatar

namespace Column

def toJson (c : Column) : Json :=
  .obj [("field_id", .str c.fieldId), ("avatar_id", .str c.avatarId), ("column", .str c.name),
    ("data_type", c.type.toJson), ("params", c.params.toJson)]

def ofJson? (m : Manner) (j : Json) : Option Column := do
  let ms ← members? ["field_id", "avatar_id", "column", "data_type", "params"] j
  return ⟨← ms.required "field_id" Json.string?, ← ms.required "avatar_id" Json.string?,
    ← ms.required "column" Json.string?, ← ms.required "data_type" (DataType.ofJson? m),
    ← ms.optional "params" .none TypeParams.ofJson?⟩

end Column

namespace Registry

def toJson (r : Registry) : Json :=
  .obj [("avatars", .arr (r.avatars.map Avatar.toJson)),
    ("columns", .arr (r.columns.map Column.toJson))]

/-- The avatars and columns of a registry, which need not fit together. -/
def listsOfJson? (m : Manner) (j : Json) : Option (List Avatar × List Column) := do
  let ms ← members? ["avatars", "columns"] j
  return (← ms.optional "avatars" [] (Json.list? Avatar.ofJson?),
    ← ms.optional "columns" [] (Json.list? (Column.ofJson? m)))

def ofJson? (m : Manner) (j : Json) : Option Registry := do
  let (avatars, columns) ← listsOfJson? m j
  (ofLists avatars columns).toOption

end Registry

/-! ## Compiled queries -/

namespace JoinSpec

def toJson (s : JoinSpec) : Json :=
  .obj [("left_id", .str s.leftId), ("right_id", .str s.rightId), ("join_type", s.joinType.toJson)]

def ofJson? (m : Manner) (j : Json) : Option JoinSpec := do
  let ms ← members? ["left_id", "right_id", "join_type"] j
  return ⟨← ms.required "left_id" Json.string?, ← ms.required "right_id" Json.string?,
    ← ms.required "join_type" (JoinType.ofJson? m)⟩

end JoinSpec

def Entry.toJson (e : Entry) : Json :=
  .obj ([("formula", e.formula.toJson)] ++ Json.present "alias" (e.aliasName.map .str) ++
    Json.present "original_field_id" (e.fieldId.map .str) ++
    [("avatar_ids", e.avatarIds.toJson)] ++ Json.present "join" (e.join.map JoinSpec.toJson) ++
    Json.present "direction" (e.direction.map Direction.toJson))

def Source.toJson : Source → Json
  | table id aliasName source =>
    .obj [("type", .str "table"), ("id", .str id), ("alias", .str aliasName),
      ("source", .str source)]
  | subquery id aliasName queryId columns =>
    .obj [("type", .str "subquery"), ("id", .str id), ("alias", .str aliasName),
      ("query_id", .str queryId), ("columns", Json.strings columns)]

def Query.toJson (q : Query) : Json :=
  .obj ([("id", .str q.id)] ++
    (Part.all.map fun p => (p.name, .arr ((q.part p).map Entry.toJson))) ++
    [("joined_from", .obj [("froms", .arr (q.sources.map Source.toJson))]),
     ("meta", .obj [("query_type", q.type.toJson)])])

def MultiQuery.toJson (m : MultiQuery) : Json :=
  .obj [("queries", .arr (m.queries.map Query.toJson))]

end FormulaSql

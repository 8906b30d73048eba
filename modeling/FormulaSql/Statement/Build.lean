import FormulaSql.Analysis.Contents
import FormulaSql.Query.Registry
import FormulaSql.Statement.Aliases
import FormulaSql.Statement.Basic
import FormulaSql.Text.Uuid

/-!
# Statements for queries

Each query becomes a statement. Its formulas see the columns of the tables that it reads, and the
selected columns of the statements that it reads.
-/

namespace FormulaSql

namespace Statement

/-! ## Sources -/

/-- The fields that a table brings in. -/
def tableFields (r : Registry) (id aliasName : String) : List (String × FieldInfo) :=
  (r.columnsOf id).map fun c => (c.fieldId, ⟨.column (some aliasName) c.name, c.type, c.params⟩)

/-- The fields that a statement brings in: the columns that are asked for. -/
def subqueryFields (s : Statement) (queryId aliasName : String) (columns : List String) :
    Except QueryError (List (String × FieldInfo)) :=
  columns.mapM fun c =>
    match s.item? c with
    | some item => .ok (c, ⟨.column (some aliasName) c, item.type, .none⟩)
    | none => .error (.lowering queryId (.unknownField c))

/-- A source of a query: its id, its place in the FROM clause, and the fields that it brings in. -/
structure Bound where
  id : String
  item : FromItem
  fields : List (String × FieldInfo)

/-- Resolves a source; statements are looked up among the earlier ones. -/
def bind (r : Registry) (earlier : List Statement) (aliases : AliasMap) :
    Source → Except QueryError (Bound × AliasMap)
  | .table id aliasName source =>
    let (aliasName, aliases) := aliases.aliasFor Text.isUuid aliasName
    .ok (⟨id, .table source aliasName, tableFields r id aliasName⟩, aliases)
  | .subquery id aliasName queryId columns =>
    match earlier.find? fun s => s.id == queryId with
    | none => .error (.unknownQuery queryId)
    | some s => do
      let fields ← subqueryFields s queryId aliasName columns
      return (⟨id, .subquery queryId aliasName, fields⟩, aliases)

/-- Resolves all sources of a query, in their order. -/
def bindAll (r : Registry) (earlier : List Statement) :
    AliasMap → List Source → Except QueryError (List Bound × AliasMap)
  | aliases, [] => .ok ([], aliases)
  | aliases, s :: ss => do
    let (b, aliases) ← bind r earlier aliases s
    let (bs, aliases) ← bindAll r earlier aliases ss
    return (b :: bs, aliases)

/-- The scope with the fields of all sources; later ones win. -/
def scopeOf (dialect : Dialects) (bound : List Bound) : Scope :=
  (bound.flatMap Bound.fields).foldl (fun s f => s.withField f.1 f.2) (.empty dialect)

/-! ## Clauses -/

/-- How the formulas of a query are lowered. -/
abbrev Lower := Formula → Except QueryError TypedSql

/-- The join conditions for a source. -/
def conditionsFor (q : Query) (id : String) : List (JoinSpec × Formula) :=
  q.joinOn.filterMap fun e =>
    e.join.bind fun j => if j.rightId == id then some (j, e.formula) else none

/-- Joins a source on all of its conditions together. The last condition says how. -/
def joinTo (lower : Lower) (q : Query) (b : Bound) : Except QueryError Join := do
  let conditions := conditionsFor q b.id
  let parts ← conditions.mapM fun c => return (← lower c.2).sql
  match parts with
  | [] => throw (.missingJoin b.id)
  | p :: ps =>
    let type := (conditions.getLast?.map fun c => c.1.joinType).getD .inner
    return ⟨b.item, type, ps.foldl Sql.and p⟩

def selectItem (lower : Lower) (e : Entry) : Except QueryError SelectItem := do
  let r ← lower e.formula
  return ⟨r.sql, e.aliasName, r.type⟩

def orderItem (lower : Lower) (e : Entry) : Except QueryError Sql := do
  return .ordered (← lower e.formula).sql (e.direction == some .desc)

/-- A filter, and whether it is one on groups. -/
def filterItem (lower : Lower) (e : Entry) : Except QueryError (Sql × Bool) := do
  return ((← lower e.formula).sql, e.formula.isAggregateExpression)

/-- The statement for a query, after those for the queries before it. -/
def ofQuery (r : Registry) (dialect : Dialects) (earlier : List Statement) (aliases : AliasMap)
    (q : Query) : Except QueryError (Statement × AliasMap) := do
  let (bound, aliases) ← bindAll r earlier aliases q.sources
  let scope := scopeOf dialect bound
  let lower : Lower := fun f => (f.lower scope).mapError (.lowering q.id)
  match bound with
  | [] => throw (.missingJoin q.id)
  | root :: others =>
    let joins ← others.mapM (joinTo lower q)
    let select ← q.select.mapM (selectItem lower)
    let groupBy ← q.groupBy.mapM fun e => return (← lower e.formula).sql
    let filters ← q.filters.mapM (filterItem lower)
    let orderBy ← q.orderBy.mapM (orderItem lower)
    return ({ id := q.id
              select
              groupBy
              rowFilters := (filters.filter fun f => !f.2).map (·.1)
              groupFilters := (filters.filter fun f => f.2).map (·.1)
              orderBy
              root := root.item
              joins }, aliases)

/-- The statements for queries, each looked up by the later ones. -/
def ofQueries (r : Registry) (dialect : Dialects) :
    List Statement → AliasMap → List Query → Except QueryError (List Statement)
  | done, _, [] => .ok done
  | done, aliases, q :: qs => do
    let (s, aliases) ← ofQuery r dialect done aliases q
    ofQueries r dialect (done ++ [s]) aliases qs

end Statement

/-- The statements for the queries, which share their table aliases. -/
def MultiQuery.statements (m : MultiQuery) (r : Registry) (dialect : Dialects) :
    Except QueryError MultiStatement := do
  return ⟨← Statement.ofQueries r dialect [] .empty m.queries⟩

end FormulaSql

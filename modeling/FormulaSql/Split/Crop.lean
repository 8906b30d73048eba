import FormulaSql.Formula.Text
import FormulaSql.Split.Base

/-!
# Carrying out a cut

From the masks, the sub-queries are made, and the query itself is cropped: what they compute is
replaced by their columns, and it reads from them.
-/

namespace FormulaSql

/-- Aggregations occur in the formula. -/
def Formula.containsAggregate (f : Formula) : Bool :=
  f.recur fun f k => f.isAggregateCall || k.autonomous.any id

namespace Split

def pathText (p : Path) : String := Text.bracketed (p.map toString)

/-! ## Sub-queries -/

/-- An aggregation in a sub-query has no level of detail or later filters of its own: the
sub-query as a whole stands for them. -/
def plainAggregate (f : Formula) : Formula :=
  match f.kind with
  | .call c =>
    if f.isAggregateCall then .mk (.call ⟨c.name, c.args, .inherited, [], NameSet.empty⟩) f.notes
    else f
  | _ => f

/-- The entry that computes the column of a cut. -/
def cutEntry (q : Query) (c : Cut) : Except QueryError Entry :=
  match (q.part c.part)[c.index]? with
  | none => .error (.split q.id ("no formula at " ++ toString c.index))
  | some e =>
    match e.formula.at? c.inner with
    | none => .error (.split q.id ("no node at " ++ pathText c.inner))
    | some f =>
      .ok { Entry.of (plainAggregate f) with
        aliasName := some c.aliasName, fieldId := e.fieldId, avatarIds := e.avatarIds }

/-- Adds an entry to the selected ones. An alias stands for one formula only. -/
def addSelected (q : Query) (c : Cut) (selected : List Entry) : Except QueryError (List Entry) := do
  let e ← cutEntry q c
  match selected.find? fun s => s.aliasName == some c.aliasName with
  | some s =>
    if s.formula == e.formula then return selected
    else throw (.split q.id ("different formulas selected as " ++ c.aliasName))
  | none => return selected ++ [e]

def extraEntry (x : Extra) : Entry :=
  { Entry.of x.expr with aliasName := some x.aliasName, avatarIds := x.sourceIds }

/-- The filters of a sub-query: those it takes over, then those in a changed form. -/
def maskFilters (q : Query) (m : Mask) : List Entry :=
  (q.filters.zipIdx.filter fun (_, i) => m.filterIndices.contains i).map (·.1) ++ m.addFilters

/-- The sub-query of a mask. -/
def subquery (q : Query) (m : Mask) : Except QueryError Query := do
  let selected ← m.cuts.foldlM (fun es c => addSelected q c es) []
  return {
    id := m.queryId
    select := selected ++ m.extras.map extraEntry
    groupBy := (m.extras.filter Extra.isGroupBy).map extraEntry
    filters := maskFilters q m
    orderBy := []
    joinOn := q.joinOn
    sources := q.sources
    type := q.type }

/-! ## Joins -/

/-- The operator that compares in join conditions; NULL equals NULL. -/
def joinEquality : String := "_dneq"

/-- The columns of the base for those of another sub-query, where they select the same. -/
def baseColumn (base other : Mask) (column : String) : Option String :=
  (other.extras.find? fun x => x.aliasName == column).bind fun x => aliasIn base.extras x.expr

/-- The expression in columns of the base. -/
def inBaseColumns (base other : Mask) (f : Formula) : Formula :=
  withColumns (fun g => g.field?.bind (baseColumn base other)) f

/-- One join condition: the main side in columns of the base, the other side as it is. -/
def joinFormula (base other : Mask) (c : JoinCondition Formula) : Formula :=
  match c with
  | .same e => .binary joinEquality (inBaseColumns base other e) e
  | .pair e e' => .binary joinEquality (inBaseColumns base other e) e'

/-- All formulas joined by AND. -/
def conjunction : List Formula → Option Formula
  | [] => none
  | f :: fs => some (fs.foldl (fun a b => .binary "and" a b) f)

/-- The entry that joins a sub-query to the base. -/
def joinFor? (base other : Mask) : Option Entry := do
  let f ← conjunction (other.joining.map (joinFormula base other))
  let joinType ← other.joinType
  return { Entry.of f with
    avatarIds := NameSet.ofList [base.queryId, other.queryId]
    join := some ⟨base.queryId, other.queryId, joinType⟩ }

/-! ## The cropped query -/

/-- The sub-query that has a column. -/
def columnSource (masks : List Mask) (column : String) : Option String :=
  (masks.reverse.find? fun m => m.columns.contains column).map Mask.queryId

/-- The alias in the base of an expression it groups by. -/
def dimensionColumn (base : Mask) (f : Formula) : Option String :=
  aliasIn (base.extras.filter Extra.isGroupBy) f

/-- Puts columns at all cuts of one formula. -/
def replaceCuts (q : Query) (cuts : List Cut) (f : Formula) : Except QueryError Formula :=
  cuts.foldlM
    (fun f c =>
      match f.replaceAt? (.field c.aliasName) c.outer with
      | some g => .ok g
      | none => .error (.split q.id ("no node at " ++ pathText c.outer)))
    f

/-- The error that stands for formulas whose sub-queries cannot be joined. -/
def incompatible : Formula :=
  .error "LOD dimensions are incompatible" ErrorCode.incompatibleDimensions

/-- What becomes of one formula: a constant stays, a dimension is a column of the base, and
elsewhere cuts are columns. Filters may use dimensions without being one. -/
def cropFormula (q : Query) (base : Mask) (cuts : List Cut) (compatible : Bool) (p : Part)
    (e : Entry) : Except QueryError Formula := do
  if e.formula.isConstantExpression then return e.formula
  else if hasAliasIn (dimensionAliases q) e then
    match dimensionColumn base e.formula with
    | some aliasName => return columnAt e.formula aliasName
    | none =>
      throw (.split q.id
        ("dimension " ++ e.formula.text ++ " is missing from the base sub-query"))
  else if !compatible then return incompatible
  else
    let f ← replaceCuts q cuts e.formula
    if p == .filters then return withColumns (dimensionColumn base) f else return f

/-- The entry in the cropped query. What neither changes nor is constant still reads from the old
sources and is left out. -/
def cropEntry (q : Query) (masks : List Mask) (base : Mask) (compatible : Bool) (p : Part)
    (e : Entry) (i : Nat) : Except QueryError (Option Entry) := do
  let cuts := (masks.flatMap Mask.cuts).filter fun c => c.part == p && c.index == i
  let f ← cropFormula q base cuts compatible p e
  if f != e.formula then
    let sources := f.usedFieldNames.toList.filterMap (columnSource masks)
    return some { e with formula := f, avatarIds := NameSet.ofList sources }
  else if e.formula.isConstantExpression then return some e
  else return none

/-- One part of the cropped query, without the entries at some positions. -/
def cropPart (q : Query) (masks : List Mask) (base : Mask) (compatible : Bool) (p : Part)
    (without : List Nat) : Except QueryError (List Entry) := do
  let kept := (q.part p).zipIdx.filter fun (_, i) => !without.contains i
  let entries ← kept.mapM fun (e, i) => cropEntry q masks base compatible p e i
  return entries.filterMap id

/-- Whether the selected formulas that are neither dimensions nor constants contain aggregations;
nothing if there are none, and an error if some do and some do not. -/
def selectsAggregates (q : Query) : Except QueryError (Option Bool) :=
  let others := q.select.filter fun e =>
    !hasAliasIn (dimensionAliases q) e && !e.formula.isConstantExpression
  others.foldlM
    (fun known e =>
      let here := e.formula.containsAggregate
      if known == none || known == some here then .ok (some here)
      else .error
        (.split q.id ("inconsistent aggregation of select item " ++ e.formula.text)))
    none

/-- A query that only selects columns takes the rows as they are. -/
def dropNeedlessGrouping (q : Query) : Except QueryError Query := do
  match ← selectsAggregates q with
  | some false => return { q with groupBy := [] }
  | _ => return q

/-- The query that reads from the sub-queries. -/
def cropped (q : Query) (masks : List Mask) (compatible : Bool) : Except QueryError Query :=
  match masks with
  | base :: others =>
    if base.isBase then do
      let crop := cropPart q masks base compatible
      let select ← crop .select []
      let groupBy ← crop .groupBy []
      let orderBy ← crop .orderBy []
      let filters ← crop .filters base.filterIndices
      dropNeedlessGrouping
        { id := q.id, select, groupBy, filters, orderBy
          joinOn := if compatible then others.filterMap (joinFor? base) else []
          sources := masks.map fun m => .subquery m.queryId m.queryId m.queryId m.columns
          type := q.type }
    else .error (.split q.id "no base sub-query to crop against")
  | [] => .error (.split q.id "no base sub-query to crop against")

end Split

end FormulaSql

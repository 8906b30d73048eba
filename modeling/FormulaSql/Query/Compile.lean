import FormulaSql.Query.Pipeline
import FormulaSql.Query.Registry

/-!
# Compiling queries

A description becomes a query: formulas get their aliases and the avatars they read, everything is
checked, and the query is prepared. All errors in formulas are reported together.
-/

namespace FormulaSql

namespace Compile

/-- The id of a compiled query. -/
def baseId : String := "qq"

/-- The stem of generated aliases. -/
def aliasStem : String := "res_"

/-! ## Entries -/

/-- The entry for a formula. Fields that are not registered are left out of its avatars. -/
def entryFor (r : Registry) (item : SpecItem) : Entry :=
  let columns := item.formula.usedFieldNames.toList.filterMap r.column?
  { Entry.of item.formula with
    aliasName := item.aliasName
    fieldId := item.fieldId
    avatarIds := NameSet.ofList (columns.map Column.avatarId) }

/-- The fields of a formula that are not registered. -/
def unknownFields (r : Registry) (f : Formula) : List FormulaError :=
  (f.usedFieldNames.toList.filter fun n => (r.column? n).isNone).map .unknownField

/-- Gives each entry the alias that it has, the one that `known` gives it, or the next one. -/
def assignAliases (known : Formula → Option String) :
    NameSupply → List Entry → List Entry × NameSupply
  | supply, [] => ([], supply)
  | supply, e :: es =>
    match e.aliasName.or (known e.formula) with
    | some a =>
      let (es, supply) := assignAliases known supply es
      ({ e with aliasName := some a } :: es, supply)
    | none =>
      let (a, supply) := supply.take
      let (es, supply) := assignAliases known supply es
      ({ e with aliasName := some a } :: es, supply)

/-- The alias of the first entry with this formula. -/
def aliasOf (es : List Entry) (f : Formula) : Option String :=
  (es.find? fun e => e.formula == f).bind Entry.aliasName

/-- An ordering without its direction, and the direction. -/
def orderItem (item : SpecItem) : SpecItem × Direction :=
  match item.formula.kind with
  | .ordered e d => ({ item with formula := e }, d)
  | _ => (item, .asc)

/-- The entry for an ordering. Ordering by a dimension uses its alias. -/
def orderEntry (r : Registry) (dims : List Entry) (item : SpecItem) : Entry :=
  let (item, direction) := orderItem item
  let e := entryFor r item
  { e with aliasName := e.aliasName.or (aliasOf dims item.formula), direction := some direction }

def joinEntry (r : Registry) (j : SpecJoin) : Entry :=
  { entryFor r ⟨j.formula, none, none⟩ with join := some ⟨j.leftId, j.rightId, j.joinType⟩ }

/-- The query with its formulas, not yet checked and without sources. Selected dimensions share
their alias. -/
def build (r : Registry) (spec : QuerySpec) : Query :=
  let supply := NameSupply.start aliasStem
  let (select, supply) := assignAliases (fun _ => none) supply (spec.select.map (entryFor r))
  let (groupBy, _) := assignAliases (aliasOf select) supply (spec.groupBy.map (entryFor r))
  { Query.empty baseId with
    select
    groupBy
    filters := spec.filters.map (entryFor r)
    orderBy := spec.orderBy.map (orderEntry r groupBy)
    joinOn := spec.joinOn.map (joinEntry r)
    type := spec.type }

/-! ## Checks -/

/-- The error of a formula that cannot be lowered. Forms that are only lowered once they are
prepared are no errors yet. -/
def loweringError? (scope : Scope) (f : Formula) : Option FormulaError :=
  match f.lower scope with
  | .ok _ => none
  | .error (.unsupportedNode _) => none
  | .error e => some e

/-- How the selected formulas and orderings stand to the grouping, those that are consistent. -/
def groupStates (q : Query) : List (Formula × GroupState) :=
  (q.select ++ q.orderBy).filterMap fun e =>
    match e.formula.groupState q.dimensions true with
    | .ok s => some (e.formula, s)
    | .error _ => none

/-- The errors of formulas that mix aggregations and rows. -/
def mixedErrors (q : Query) : List FormulaError :=
  (q.select ++ q.orderBy ++ q.filters).filterMap fun e =>
    match e.formula.groupState q.dimensions true with
    | .ok _ => none
    | .error e => some (.validation e)

/-- The errors of formulas that give rows in a query that gives groups. -/
def rowErrors (q : Query) : List FormulaError :=
  let states := groupStates q
  if !q.dimensions.isEmpty || states.any (·.2 == .aggregated) then
    (states.filter (·.2 == .unaggregated)).map fun s =>
      .validation (.inconsistentAggregation s.1.text)
  else []

/-- All errors in the formulas of a query, each once. -/
def errors (r : Registry) (s : Settings) (q : Query) : List FormulaError :=
  let formulas := q.entries.map fun e => e.2.formula
  let scope := r.scope s.dialect
  (formulas.flatMap (unknownFields r) ++ formulas.filterMap (loweringError? scope) ++
    if q.type == .totals then [] else mixedErrors q ++ rowErrors q).eraseDups

/-! ## Sources -/

/-- The avatars that a query reads: those of joins first, then those of its formulas. -/
def avatarIds (spec : QuerySpec) (q : Query) : List String :=
  (spec.joinOn.flatMap (fun j => [j.leftId, j.rightId]) ++
    q.entries.flatMap fun e => e.2.avatarIds.toList).eraseDups

/-- The table of an avatar. -/
def sourceFor (r : Registry) (id : String) : Except QueryError Source :=
  match r.avatar? id with
  | some a => .ok (.table id id a.source)
  | none => .error (.unknownAvatar id)

end Compile

/-- Builds, checks and prepares the query that is asked for. -/
def QuerySpec.compile (spec : QuerySpec) (r : Registry) (s : Settings) :
    Except QueryError Query := do
  let q := Compile.build r spec
  let errors := Compile.errors r s q
  if !errors.isEmpty then throw (.formulas errors)
  let sources ← (Compile.avatarIds spec q).mapM (Compile.sourceFor r)
  let q ← { q with sources }.process s spec.defaultOrdering
  let recorded := q.entries.flatMap fun e => e.2.formula.errors
  if !recorded.isEmpty then throw (.formulas recorded)
  return q

end FormulaSql

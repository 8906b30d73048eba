import FormulaSql.Split.Groups

/-!
# The base of a cut query

The sub-queries are joined to a base. It computes what no fork covers, at the dimensions of the
query. If nothing is left over, one of the sub-queries can be the base itself.
-/

namespace FormulaSql

/-- The paths of the largest expressions that do not contain a cut, constants apart. -/
def Formula.uncutPaths (f : Formula) (cuts : List Path) : List Path :=
  let search : Path → List Path := f.recur fun f k path =>
    if cuts.contains path then []
    else if cuts.any path.isPrefixOf then
      k.autonomous.zipIdx.flatMap fun (below, i) => below (path ++ [i])
    else if f.isConstantExpression then []
    else [path]
  search []

namespace Split

/-- The aliases of the dimensions of a query. -/
def dimensionAliases (q : Query) : List String := q.groupBy.filterMap Entry.aliasName

/-- The entry has the alias of a dimension. -/
def hasAliasIn (aliases : List String) (e : Entry) : Bool :=
  match e.aliasName with
  | some a => aliases.contains a
  | none => false

/-- What no fork covers in one formula. A filter that is not cut is applied as a whole. -/
def uncutEntry (q : Query) (cuts : List Cut) (p : Part) (e : Entry) (i : Nat) : List Path :=
  let paths := (cuts.filter fun c => c.part == p && c.index == i).map Cut.outer
  if hasAliasIn (dimensionAliases q) e || e.formula.isConstantExpression ||
      (p == .filters && paths.isEmpty)
  then []
  else e.formula.uncutPaths paths

/-- Columns for everything that no fork covers. -/
def uncutCuts (q : Query) (cuts : List Cut) : Naming (List Cut) :=
  (Part.splittable.flatMap fun p =>
      (q.part p).zipIdx.flatMap fun (e, i) =>
        (uncutEntry q cuts p e i).map fun path => (p, i, path)).mapM
    fun (p, i, path) => return ⟨p, i, path, path, ← freshColumn⟩

/-- The dimensions of a query that are not constant. -/
def realDimensions (q : Query) : List Formula :=
  q.dimensions.filter fun d => !d.isConstantExpression

/-- The number of dimensions that a sub-query groups by. -/
def groupByCount (m : Mask) : Nat := m.groupByExprs.length

/-- The sub-query has the most dimensions of all, among them those of the query. -/
def coversDimensions (q : Query) (masks : List Mask) (m : Mask) : Bool :=
  masks.all (fun n => groupByCount n ≤ groupByCount m) &&
    (realDimensions q).all m.groupByExprs.contains

/-- The sub-query has exactly the dimensions and filters of the query and is joined directly. -/
def equalsBase (q : Query) (filters : List Nat) (m : Mask) : Bool :=
  groupByCount m == (realDimensions q).eraseDups.length && m.filterIndices == filters &&
    m.joinsDirectly

/-- The position of the sub-query that can be the base: the last that covers the dimensions, if it
is as good as a base of its own. Without dimensions it always is. -/
def baseCandidate (q : Query) (filters : List Nat) (masks : List Mask) : Option Nat :=
  match (masks.zipIdx.filter fun (m, _) => coversDimensions q masks m).getLast? with
  | some (m, i) => if equalsBase q filters m || (realDimensions q).isEmpty then some i else none
  | none => none

/-- A base of its own, for what no fork covers. -/
def ownBase (q : Query) (cuts : List Cut) (filters : List Nat) : Naming Mask := do
  let extras ← q.groupBy.mapM fun e =>
    return ⟨← freshColumn, e.formula, e.avatarIds, !e.formula.isConstantExpression⟩
  return {
    queryId := ← freshQuery
    isWindow := false
    cuts, extras
    filterIndices := filters
    addFilters := []
    joinType := none
    joining := []
    isBase := true }

/-- The masks with the base in front. -/
def withBase (q : Query) (masks : List Mask) : Naming (List Mask) := do
  let cuts := masks.flatMap Mask.cuts
  let uncut ← uncutCuts q cuts
  let filters := (List.range q.filters.length).filter fun i => !(cutFilters cuts).contains i
  let candidate := if uncut.isEmpty then baseCandidate q filters masks else none
  match candidate.bind fun i => (masks[i]?).map (i, ·) with
  | some (i, m) => return { m with isBase := true } :: masks.eraseIdx i
  | none => return (← ownBase q uncut filters) :: masks

/-! ## Completing the base -/

/-- Adds extras for expressions that are not selected yet. -/
def addExtras (extras new : List Extra) : List Extra :=
  new.foldl (fun xs x => if (aliasIn xs x.expr).isSome then xs else xs ++ [x]) extras

/-- Window calls that are taken alone are computed by the base itself. It then has the filters of
the window calls, because later filters have to stay above. -/
def mergeWindows (masks : List Mask) : List Mask :=
  match masks with
  | [base, other] =>
    if base.isWindow || other.isWindow then
      [{ base with
         extras := addExtras base.extras other.extras
         cuts := base.cuts ++ other.cuts
         filterIndices := other.filterIndices
         addFilters := other.addFilters }]
    else masks
  | _ => masks

/-- Adds an extra under a new name, unless its expression is selected already. -/
def addFresh (extras : List Extra) (x : Extra) : Naming (List Extra) := do
  if (aliasIn extras x.expr).isSome then return extras
  else return extras ++ [{ x with aliasName := ← freshColumn }]

/-- The base selects everything that the others are joined on. -/
def completeBase : List Mask → Naming (List Mask)
  | [] => return []
  | base :: others => do
    let extras ← (others.flatMap Mask.extras).foldlM addFresh base.extras
    return { base with extras } :: others

end Split

end FormulaSql

import FormulaSql.Query.Compile
import FormulaSql.Split.Crop

/-!
# Cutting a query until no fork is left

Each round cuts one query along its outermost forks. The sub-queries may hold deeper forks, which
later rounds take.
-/

namespace FormulaSql

namespace Split

/-- The plan of one round. -/
structure Plan where
  masks : List Mask
  /-- The dimensions of the sub-queries go together. -/
  compatible : Bool

/-- The union of the dimension sets of all sub-queries and of the query is one of them. -/
def dimensionsCompatible (q : Query) (masks : List Mask) : Bool :=
  let sets := masks.map Mask.groupByExprs ++ [realDimensions q]
  sets.any fun set => sameMembers set sets.flatten.eraseDups

/-- Plans a round; there is nothing to plan without forks. -/
def plan (q : Query) : Naming (Option Plan) := do
  let (isWindow, found) := prioritized (sites q)
  let groups ← forkGroups q found
  if groups.isEmpty then return none
  let masks ← groupMasks q isWindow groups
  let compatible := dimensionsCompatible q masks
  let masks ← completeBase (mergeWindows (← withBase q masks))
  return some ⟨masks, compatible⟩

/-- The sub-queries of a plan, and after them the cropped query. -/
def Plan.queries (q : Query) (p : Plan) : Except QueryError (List Query) := do
  let subqueries ← p.masks.mapM (subquery q)
  return subqueries ++ [← cropped q p.masks p.compatible]

/-- One round. Names are used up even if it fails. -/
def round (q : Query) (names : Names) : Except QueryError (Option (List Query)) × Names :=
  let (p, names) := plan q names
  match p with
  | none => (.ok none, names)
  | some p => ((p.queries q).map some, names)

/-- How many rounds one query may take. -/
def maxRounds : Nat := 64

/-- Cuts the first query that has forks, again and again. -/
def rounds : Nat → Names → List Query → Except QueryError (List Query)
  | fuel, names, qs =>
    let before := qs.takeWhile fun q => !q.containsFork
    match qs.drop before.length with
    | [] => .ok qs
    | q :: after =>
      match fuel with
      | 0 => .error (.splitLimitExceeded maxRounds)
      | fuel + 1 =>
        match round q names with
        | (.error e, _) => .error e
        | (.ok none, _) => .ok qs
        | (.ok (some new), names) => rounds fuel names (before ++ new ++ after)

end Split

/-- Cuts a query into queries without forks. -/
def Query.split (q : Query) : Except QueryError MultiQuery := do
  let qs ← Split.rounds Split.maxRounds .start [q]
  let errors := qs.flatMap fun q => q.entries.flatMap fun e => e.2.formula.errors
  if errors.isEmpty then return ⟨qs⟩ else throw (.formulas errors)

/-- Compiles a query and cuts it. -/
def QuerySpec.compileMulti (spec : QuerySpec) (r : Registry) (s : Settings) :
    Except QueryError MultiQuery := do
  (← spec.compile r s).split

end FormulaSql

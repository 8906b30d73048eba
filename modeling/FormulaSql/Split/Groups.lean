import FormulaSql.Analysis.Dimensions
import FormulaSql.Formula.Build
import FormulaSql.Split.Mask

/-!
# Forks that are taken together

Each round takes the outermost forks of a query. Forks that agree in everything their sub-query
depends on share one.
-/

namespace FormulaSql

/-- The outermost forks of a formula at expressions of their own, with their paths. -/
def Formula.outermostForks (f : Formula) : List (Path × Fork Formula) :=
  let search : Path → List (Path × Fork Formula) := f.recur fun f k path =>
    match f.fork? with
    | some q => [(path, q)]
    | none => k.autonomous.zipIdx.flatMap fun (below, i) => below (path ++ [i])
  search []

namespace Split

/-! ## Finding forks -/

/-- A fork and the place where it stands. -/
structure Site where
  part : Part
  index : Nat
  path : Path
  fork : Fork Formula
  /-- The filters of the query that come after it. -/
  laterFilters : NameSet

namespace Site

/-- The fork is there for a window call. -/
def isWindow (s : Site) : Bool := s.fork.result.unwrapped.isWindowCall

end Site

/-- All outermost forks of a query. -/
def sites (q : Query) : List Site :=
  Part.splittable.flatMap fun p =>
    (q.part p).zipIdx.flatMap fun (e, i) =>
      e.formula.outermostForks.map fun (path, fork) =>
        ⟨p, i, path, fork, fork.beforeFilterBy.filter q.filterIds.contains⟩

/-- The first of the smallest sets. -/
def smallest : List NameSet → Option NameSet
  | [] => none
  | s :: ss =>
    match smallest ss with
    | some t => if t.size < s.size then some t else some s
    | none => some s

/-- Window forks are taken alone when the smallest of their sets of later filters is part of every
other set; their sub-query then needs no join. The result says whether that is so. -/
def prioritized (found : List Site) : Bool × List Site :=
  match smallest ((found.filter Site.isWindow).map Site.laterFilters) with
  | none => (false, found)
  | some least =>
    if found.all fun s => least.subset s.laterFilters then
      (true, found.filter fun s => s.isWindow && s.laterFilters == least)
    else (false, found)

/-! ## Grouping forks -/

/-- What the sub-query of a fork depends on. -/
structure Signature where
  dims : List Formula
  /-- The levels of detail of the forks just below. -/
  childLods : List (Lod Formula)
  joinType : JoinType
  laterFilters : NameSet
  joining : List (JoinCondition Formula)

namespace Signature

/-- The forks can share a sub-query. -/
def agrees (a b : Signature) : Bool :=
  sameMembers a.dims b.dims && sameMembers a.childLods b.childLods && a.joinType == b.joinType &&
    a.laterFilters == b.laterFilters && a.joining == b.joining

end Signature

/-- The levels of detail of the outermost forks of a formula, each once. -/
def childLods (f : Formula) : List (Lod Formula) :=
  (f.outermostForks.map fun s => s.2.lod).eraseDups

/-- The dimensions of a fork in a query. -/
def forkDims (q : Query) : Lod Formula → List Formula
  | .fixed dims => dims
  | lod => lod.resolve q.dimensions

/-- The signature of a fork. Without dimensions it is joined on a constant. -/
def signatureOf (q : Query) (s : Site) : Signature :=
  let dims := forkDims q s.fork.lod
  let one := Formula.int 1
  { dims := if dims.isEmpty then [one] else dims
    childLods := childLods s.fork.result
    joinType := s.fork.joinType
    laterFilters := s.laterFilters
    joining := if dims.isEmpty then [.same one] else s.fork.joining }

/-- Forks that share a sub-query. -/
structure ForkGroup where
  signature : Signature
  extras : List Extra
  shifts : List (FilterShift Formula)
  /-- Results that have a column already. -/
  columns : List (Formula × String)
  cuts : List Cut

/-- Selects expressions under new names. -/
def selectAll (sourceIds : NameSet) (isGroupBy : Formula → Bool) (fs : List Formula) :
    Naming (List Extra) :=
  fs.mapM fun f => return ⟨← freshColumn, f, sourceIds, isGroupBy f⟩

/-- The ids of the sources of a query. -/
def sourceIds (q : Query) : NameSet := NameSet.ofList (q.sources.map Source.id)

/-- The group of a fork that agrees with no earlier one. It selects the dimensions and the
aggregations in join conditions. -/
def newGroup (q : Query) (s : Site) (sig : Signature) : Naming ForkGroup := do
  let dims ← selectAll (sourceIds q) (fun d => !d.isConstantExpression) sig.dims
  let joined ← selectAll (sourceIds q) (fun _ => false)
    ((sig.joining.flatMap JoinCondition.parts).filter Formula.isAggregateExpression)
  return ⟨sig, dims ++ joined, s.fork.shifts, [], []⟩

/-- Adds a fork to its group. Equal results share a column. -/
def addFork (g : ForkGroup) (s : Site) : Naming ForkGroup := do
  let cut (aliasName : String) : Cut := ⟨s.part, s.index, s.path, s.path ++ [0], aliasName⟩
  match g.columns.find? fun c => c.1 == s.fork.result with
  | some (_, aliasName) => return { g with cuts := g.cuts ++ [cut aliasName] }
  | none =>
    let aliasName ← freshColumn
    return { g with
      columns := g.columns ++ [(s.fork.result, aliasName)], cuts := g.cuts ++ [cut aliasName] }

/-- Puts a fork into the first group that it agrees with, or into a new one at the end. -/
def placeFork (q : Query) (s : Site) (sig : Signature) : List ForkGroup → Naming (List ForkGroup)
  | [] => return [← addFork (← newGroup q s sig) s]
  | g :: gs => do
    if g.signature.agrees sig then return (← addFork g s) :: gs
    else return g :: (← placeFork q s sig gs)

/-- The groups of the forks of a query. -/
def forkGroups (q : Query) (found : List Site) : Naming (List ForkGroup) :=
  found.foldlM (fun gs s => placeFork q s (signatureOf q s) gs) []

/-! ## Masks of groups -/

/-- The expression with a column for every extra, the largest extras first. -/
def inColumns (extras : List Extra) (f : Formula) : Formula :=
  (extras.mergeSort fun a b => b.expr.size ≤ a.expr.size).foldl
    (fun f x => withColumn f x.expr x.aliasName) f

/-- The filter comes after the forks of the group. -/
def isLater (g : ForkGroup) (e : Entry) : Bool :=
  match e.fieldId with
  | some id => g.signature.laterFilters.contains id
  | none => false

/-- The formula with all shifts of the group applied. -/
def shiftFormula (shifts : List (FilterShift Formula)) (f : Formula) : Formula :=
  shifts.foldl (fun f s => f.replaceAll s.source s.target) f

/-- Later filters that the group shifts, in their shifted form. -/
def shiftedFilters (q : Query) (g : ForkGroup) : List Entry :=
  (q.filters.filter fun e =>
      isLater g e && g.shifts.any fun s => e.formula.containsNode s.source).map
    fun e => { e with formula := shiftFormula g.shifts e.formula }

/-- The positions of the filters that the group applies as they are: those that neither come later
nor are cut. -/
def plainFilters (q : Query) (cut : List Nat) (g : ForkGroup) : List Nat :=
  (q.filters.zipIdx.filter fun (e, i) => !isLater g e && !cut.contains i).map (·.2)

/-- The mask of a group. -/
def groupMask (q : Query) (cut : List Nat) (isWindow : Bool) (g : ForkGroup) : Naming Mask :=
  return {
    queryId := ← freshQuery
    isWindow
    cuts := g.cuts
    extras := g.extras
    filterIndices := plainFilters q cut g
    addFilters := shiftedFilters q g
    joinType := some g.signature.joinType
    joining := g.signature.joining.map (·.map (inColumns g.extras))
    isBase := false }

/-- The masks of all groups. -/
def groupMasks (q : Query) (isWindow : Bool) (groups : List ForkGroup) : Naming (List Mask) :=
  groups.mapM (groupMask q (cutFilters (groups.flatMap ForkGroup.cuts)) isWindow)

end Split

end FormulaSql

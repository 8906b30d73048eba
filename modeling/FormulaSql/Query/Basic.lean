import FormulaSql.Analysis.Contents
import FormulaSql.Query.Error
import FormulaSql.Query.Spec

/-!
# Compiled queries

A query keeps its formulas in five lists and reads from tables and other queries. A query with
forks is later cut into several, each after those it reads from.
-/

namespace FormulaSql

/-- The two sources that a join condition connects. -/
structure JoinSpec where
  leftId : String
  rightId : String
  joinType : JoinType
  deriving DecidableEq

/-- A formula in a query. -/
structure Entry where
  formula : Formula
  aliasName : Option String
  /-- The field the formula was made for. -/
  fieldId : Option String
  /-- The sources it reads from. -/
  avatarIds : NameSet
  /-- What it joins, for join conditions. -/
  join : Option JoinSpec
  /-- The direction it sorts in, for orderings. -/
  direction : Option Direction

namespace Entry

/-- A bare formula. -/
def of (f : Formula) : Entry := ⟨f, none, none, NameSet.empty, none, none⟩

/-- The two entries are the same up to positions in formulas. -/
def same (a b : Entry) : Bool :=
  a.formula == b.formula && a.aliasName == b.aliasName && a.fieldId == b.fieldId &&
    a.avatarIds == b.avatarIds && a.join == b.join && a.direction == b.direction

instance : BEq Entry := ⟨same⟩

end Entry

/-- Something a query reads from. -/
inductive Source where
  /-- The table of an avatar. -/
  | table (id aliasName source : String)
  /-- The result of another query. -/
  | subquery (id aliasName queryId : String) (columns : List String)
  deriving DecidableEq

namespace Source

def id : Source → String
  | table id _ _ => id
  | subquery id _ _ _ => id

def aliasName : Source → String
  | table _ aliasName _ => aliasName
  | subquery _ aliasName _ _ => aliasName

/-- The query that is read. -/
def queryId? : Source → Option String
  | table _ _ _ => none
  | subquery _ _ queryId _ => some queryId

end Source

/-- The lists of formulas of a query. -/
inductive Part where
  | select
  | groupBy
  | filters
  | orderBy
  | joinOn
  deriving DecidableEq, Repr

namespace Part

def all : List Part := [select, groupBy, filters, orderBy, joinOn]

theorem mem_all (p : Part) : p ∈ all := by
  cases p <;> simp [all]

/-- The parts that forks are cut out of. -/
def splittable : List Part := [select, orderBy, filters]

def name : Part → String
  | select => "select"
  | groupBy => "group_by"
  | filters => "filters"
  | orderBy => "order_by"
  | joinOn => "join_on"

end Part

structure Query where
  id : String
  select : List Entry
  groupBy : List Entry
  filters : List Entry
  orderBy : List Entry
  joinOn : List Entry
  /-- What it reads from; the others are joined to the first. -/
  sources : List Source
  type : QueryType

namespace Query

/-- A query with nothing in it. -/
def empty (id : String) : Query := ⟨id, [], [], [], [], [], [], .normal⟩

def part (q : Query) : Part → List Entry
  | .select => q.select
  | .groupBy => q.groupBy
  | .filters => q.filters
  | .orderBy => q.orderBy
  | .joinOn => q.joinOn

/-- All formulas with the part they stand in. -/
def entries (q : Query) : List (Part × Entry) :=
  Part.all.flatMap fun p => (q.part p).map fun e => (p, e)

theorem mem_entries {q : Query} {p : Part} {e : Entry} (he : e ∈ q.part p) : (p, e) ∈ q.entries :=
  List.mem_flatMap.mpr ⟨p, Part.mem_all p, List.mem_map_of_mem he⟩

/-- Some formula of the query satisfies `p`. -/
def anyFormula (q : Query) (p : Formula → Bool) : Bool := q.entries.any fun e => p e.2.formula

/-- The expressions the query groups by. -/
def dimensions (q : Query) : List Formula := q.groupBy.map Entry.formula

/-- The names of the filters that belong to a field. -/
def filterIds (q : Query) : NameSet := NameSet.ofList (q.filters.filterMap Entry.fieldId)

/-- The entry with its formula changed by `f`; one that comes out the same stays as it was. -/
def mapEntry (f : Formula → Formula) (e : Entry) : Entry :=
  let g := f e.formula
  if g == e.formula then e else { e with formula := g }

/-- Changes all formulas. -/
def mapFormulas (q : Query) (f : Part → Formula → Formula) : Query :=
  { q with
    select := q.select.map (mapEntry (f .select))
    groupBy := q.groupBy.map (mapEntry (f .groupBy))
    filters := q.filters.map (mapEntry (f .filters))
    orderBy := q.orderBy.map (mapEntry (f .orderBy))
    joinOn := q.joinOn.map (mapEntry (f .joinOn)) }

/-- A fork is left in a part that forks are cut out of. -/
def containsFork (q : Query) : Bool :=
  Part.splittable.any fun p => (q.part p).any fun e => e.formula.containsFork

/-- The two queries are the same up to positions in formulas. -/
def same (a b : Query) : Bool :=
  a.id == b.id && (Part.all.all fun p => a.part p == b.part p) && a.sources == b.sources &&
    a.type == b.type

instance : BEq Query := ⟨same⟩

end Query

/-- Queries of which each reads from earlier ones only; the last one is the answer. -/
structure MultiQuery where
  queries : List Query

namespace MultiQuery

def top? (m : MultiQuery) : Option Query := m.queries.getLast?

/-- The first query with this id. -/
def query? (m : MultiQuery) (id : String) : Option Query := m.queries.find? fun q => q.id == id

/-- Which query reads from which. -/
def edges (m : MultiQuery) : List (String × String) :=
  m.queries.flatMap fun q => (q.sources.filterMap Source.queryId?).map fun s => (q.id, s)

end MultiQuery

/-- A supply of names: a stem with the numbers 1, 2, 3, … -/
structure NameSupply where
  stem : String
  next : Nat
  deriving DecidableEq

namespace NameSupply

def start (stem : String) : NameSupply := ⟨stem, 1⟩

/-- The next name, and the supply after it. -/
def take (s : NameSupply) : String × NameSupply :=
  (s.stem ++ toString s.next, { s with next := s.next + 1 })

/-- The next `n` names. -/
def names (s : NameSupply) : Nat → List String
  | 0 => []
  | n + 1 => s.take.1 :: s.take.2.names n

end NameSupply

end FormulaSql

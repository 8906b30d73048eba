import FormulaSql.Formula.Equality
import FormulaSql.Function.Dispatch

/-!
# What a formula contains

Questions about the nodes of a formula: aggregations, lookups, window calls, forks and fields.
-/

namespace FormulaSql.Formula

/-- A call of an aggregation. -/
def isAggregateCall (f : Formula) : Bool :=
  match f.call? with
  | some c => Function.isAggregate c.name
  | none => false

/-- A call of a lookup. -/
def isLookupCall (f : Formula) : Bool :=
  match f.call? with
  | some c => Function.isLookup c.name
  | none => false

def isWindowCall (f : Formula) : Bool := f.window?.isSome

def isFork (f : Formula) : Bool := f.fork?.isSome

def isError (f : Formula) : Bool :=
  match f.kind with
  | .error _ _ => true
  | _ => false

/-- The formula has one value for each group: it is an aggregation, a window call or a fork, or has
one among its expressions. -/
def isAggregateExpression (f : Formula) : Bool :=
  f.recur fun f k => f.isWindowCall || f.isFork || f.isAggregateCall || k.autonomous.any id

/-- The target stands somewhere in the formula. -/
def containsNode (f target : Formula) : Bool := f.any (· == target)

def containsLookup (f : Formula) : Bool := f.any isLookupCall

def containsWindow (f : Formula) : Bool := f.any isWindowCall

def containsFork (f : Formula) : Bool := f.any isFork

/-- An aggregation that has a level of detail or later filters of its own. -/
def isExtendedCall (f : Formula) : Bool :=
  match f.call? with
  | some c => f.isAggregateCall && (!c.lod.isInherited || !c.beforeFilterBy.isEmpty)
  | none => false

/-- Some aggregation is extended or, if `nested` is set, stands inside another one. -/
def containsExtended (f : Formula) (nested : Bool) : Bool :=
  let search : Bool → Bool := f.recur fun f k inside =>
    f.isExtendedCall || (f.isAggregateCall && nested && inside) ||
      k.autonomous.any fun below => below (inside || f.isAggregateCall)
  search false

/-- The formula uses no field and nothing that has a value for each group. -/
def isConstantExpression (f : Formula) : Bool :=
  !f.any fun g =>
    g.field?.isSome || g.isWindowCall || g.isFork || g.isError || g.isAggregateCall

/-- The field nodes of a formula, each once, in order of appearance. -/
def usedFields (f : Formula) : List Formula :=
  (f.nodes.filter fun g => g.field?.isSome).eraseDups

/-- The names of the fields of a formula. -/
def usedFieldNames (f : Formula) : NameSet := NameSet.ofList (f.usedFields.filterMap field?)

/-- The formula inside all enclosing parentheses. -/
def unwrapped (f : Formula) : Formula :=
  f.recur fun f k =>
    match k with
    | .paren inner => inner
    | _ => f

/-- A fork whose result is a window call, parentheses apart. -/
def isWindowFork (f : Formula) : Bool :=
  match f.fork? with
  | some q => q.result.unwrapped.isWindowCall
  | none => false

end FormulaSql.Formula

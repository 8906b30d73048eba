import FormulaSql.Analysis.Dimensions
import FormulaSql.Formula.Build
import FormulaSql.Formula.Transform

/-!
# Lookups as forks

A lookup reads a measure at another date. It becomes a fork that is joined on the dimensions of
its surroundings, with the lookup dimension shifted.
-/

namespace FormulaSql.Normalize

inductive LookupKind where
  /-- The measure some time ago. -/
  | ago
  /-- The measure at a given date. -/
  | atDate
  deriving DecidableEq, Repr

namespace LookupKind

def ofName? (name : String) : Option LookupKind :=
  match name.toLower with
  | "ago" => some ago
  | "at_date" => some atDate
  | _ => none

def acceptsCount : LookupKind → Nat → Bool
  | ago, n => 2 ≤ n && n ≤ 4
  | atDate, n => n == 3

end LookupKind

/-- The call of a lookup and its kind. -/
def lookup? (f : Formula) : Option (Call Formula × LookupKind) := do
  let c ← f.call?
  return (c, ← LookupKind.ofName? c.name)

/-- The dimension moved by the unit and number of the lookup. -/
def shifted (dimension : Formula) (shift : List Formula) : Formula :=
  .call "dateadd" (dimension :: shift)

/-- The first text literal among the arguments, in lower case; a day without one. -/
def unitName (shift : List Formula) : String :=
  (shift.findSome? fun a =>
    match a.literal? with
    | some (.string s) => some s.toLower
    | _ => none).getD "day"

/-- Units that are not a fixed number of days. -/
def monthBasedUnits : List String := ["month", "quarter", "year"]

/-- The conditions on the lookup dimension. A shift by months has to keep the day, because months
differ in length. -/
def lookupConditions (dimension : Formula) (rest : List Formula) :
    LookupKind → List (JoinCondition Formula)
  | .ago =>
    let day := Formula.call "day" [dimension]
    .pair dimension (shifted dimension rest) ::
      if monthBasedUnits.contains (unitName rest) then [.pair day day] else []
  | .atDate => rest.take 1 |>.map fun date => .pair date dimension

/-- How filters on the lookup dimension move with it. -/
def lookupShifts (dimension : Formula) (rest : List Formula) :
    LookupKind → List (FilterShift Formula)
  | .ago => [⟨dimension, shifted dimension rest⟩]
  | .atDate => []

def countError (c : Call Formula) : Formula :=
  .error ("Invalid number of arguments for function " ++ c.name.toUpper ++ ": " ++
    toString c.args.length ++ ". Either 2, 3 or 4 are needed.") ErrorCode.lookupArgNumber

/-- The conditions that join a lookup: those on the lookup dimension in its place, equality on
every other dimension, and nothing on the ignored ones. -/
def lookupJoining (dims ignored : List Formula) (dimension : Formula)
    (conditions : List (JoinCondition Formula)) : List (JoinCondition Formula) :=
  dims.flatMap fun d =>
    if ignored.contains d then []
    else if d == dimension then conditions
    else [.same d]

/-- The fork for a lookup of `measure`, or an error node. -/
def lookupFork (dims : List Formula) (allowEmpty : Bool) (c : Call Formula) (kind : LookupKind)
    (measure dimension : Formula) (rest : List Formula) : Formula :=
  let name := c.name.toUpper
  let conditions := lookupConditions dimension rest kind
  let found := dims.any fun d => !c.ignored.contains d && d == dimension
  if !measure.isAggregateExpression then
    .error ("Result expression of function " ++ name ++ " is not aggregated.")
      ErrorCode.lookupWithoutAggregation
  else if dimension.isAggregateExpression then
    .error ("The lookup dimension of function " ++ name ++ " is an aggregation.")
      ErrorCode.lookupAggregatedDimension
  else if c.ignored.contains dimension then
    .error ("Cannot ignore lookup dimension of function " ++ name)
      ErrorCode.lookupIgnoredDimension
  else if conditions.all fun j => j.parts.all fun e => e.usedFields.isEmpty then
    .error ("Cannot use a constant expression as lookup dimension of function " ++ name)
      ErrorCode.lookupConstantDimension
  else if (!allowEmpty || !dims.isEmpty) && !found then
    .error ("Invalid dimension for function " ++ name ++
      ". It must be explicitly used in the data request as a dimension.")
      ErrorCode.lookupUnselectedDimension
  else
    .of (.fork
      { joinType := .left
        result := measure
        joining := lookupJoining dims c.ignored dimension conditions
        lod := .inherited
        beforeFilterBy := c.beforeFilterBy
        shifts := lookupShifts dimension rest kind })

/-- Puts lookups into forks. -/
def lookups (dims : List Formula) (allowEmpty : Bool) : Rule := fun above f => do
  let (c, kind) ← lookup? f
  if !kind.acceptsCount c.args.length then some (countError c)
  else
    match c.args with
    | measure :: dimension :: rest =>
      let context := Formula.contextDimensions dims above
      some (lookupFork context allowEmpty c kind measure dimension rest)
    | _ => some (countError c)

/-- Lets a filter on the lookup dimension come after the lookup. -/
def lookupFilters : Rule := fun _ f => do
  let (c, kind) ← lookup? f
  if !kind.acceptsCount c.args.length then some (countError c)
  else
    let name ← c.args[1]?.bind Formula.field?
    some (.mk (.call { c with beforeFilterBy := c.beforeFilterBy.insert name }) f.notes)

end FormulaSql.Normalize

import FormulaSql.Analysis.Contents
import FormulaSql.Formula.Transform

/-!
# Window calls

Window calls get the ordering of the query, a grouping in terms of its dimensions, and a fork
around the outermost of them.
-/

namespace FormulaSql.Normalize

/-- The expression that is ordered by. -/
def orderKey (f : Formula) : Formula :=
  match f.kind with
  | .ordered e _ => e
  | _ => f

/-- The items of the default ordering that a call does not order by already. -/
def missingOrdering (default : List Formula) (w : WindowCall Formula) : List Formula :=
  default.filter fun item => !w.ordering.any fun o => orderKey o == orderKey item

/-- Adds the default ordering to calls that depend on the order of rows. -/
def defaultOrdering (default : List Formula) : Rule := fun _ f => do
  let w ← f.window?
  let missing := missingOrdering default w
  if Function.usesDefaultOrdering w.name && !missing.isEmpty then
    some (.mk (.window { w with ordering := w.ordering ++ missing }) f.notes)
  else none

/-- Turns AMONG into WITHIN by the other dimensions of the query. -/
def amongToWithin (dims : List Formula) : Rule := fun _ f => do
  let w ← f.window?
  match w.grouping with
  | .among ds =>
    let within := dims.filter fun d => !ds.contains d
    some (.mk (.window { w with grouping := .within within }) f.notes)
  | _ => none

/-- Drops WITHIN dimensions that the query does not have. -/
def dropExtraWithin (dims : List Formula) : Rule := fun _ f => do
  let w ← f.window?
  match w.grouping with
  | .within ds =>
    if ds.all dims.contains then none
    else some (.mk (.window { w with grouping := .within (ds.filter dims.contains) }) f.notes)
  | _ => none

/-- Puts the outermost window calls into forks at the dimensions of the query. -/
def windowForks (dims : List Formula) : Rule := fun above f => do
  let w ← f.window?
  if above.any Formula.isWindowCall || above.any Formula.isWindowFork then none
  else
    some (.of (.fork
      { joinType := .left
        result := f
        joining := dims.map .same
        lod := .fixed dims
        beforeFilterBy := w.beforeFilterBy
        shifts := [] }))

end FormulaSql.Normalize

import FormulaSql.Formula.Transform

/-!
# Filters that come later

A window call or a fork can ask that some filters are applied after it. What stands inside it is
computed still earlier, so it has to come before the same filters.
-/

namespace FormulaSql.Normalize

/-- The filters that a window call or a fork comes before. -/
def laterFilters? (f : Formula) : Option NameSet :=
  match f.kind with
  | .window w => some w.beforeFilterBy
  | .fork q => some q.beforeFilterBy
  | _ => none

/-- The filters that a window call or a fork comes before together with all that enclose it, those
that the query has. -/
def fullLaterFilters (available : NameSet) (above : List Formula) (own : NameSet) : NameSet :=
  ((above.filterMap laterFilters?).foldr (fun s acc => s.union acc) own).filter available.contains

/-- Gives window calls and forks the full set of filters they come before. -/
def laterFilters (available : NameSet) : Rule := fun above f => do
  let own ← laterFilters? f
  let full := fullLaterFilters available above own
  if full == own then none
  else
    match f.kind with
    | .window w => some (.mk (.window { w with beforeFilterBy := full }) f.notes)
    | .fork q => some (.mk (.fork { q with beforeFilterBy := full }) f.notes)
    | _ => none

end FormulaSql.Normalize

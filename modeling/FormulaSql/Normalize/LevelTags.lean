import FormulaSql.Analysis.Contents
import FormulaSql.Formula.Build
import FormulaSql.Formula.Transform

/-!
# Level tags

Each window call is put into a parenthesis with a tag: the filters that come after it, its place
among nested calls with the same filters, and the number of forks around it. Calls with the same
tag can be computed by one sub-query.
-/

namespace FormulaSql

/-- The length of the longest chain of window calls before the same filters, from this node down,
each one a nearest window call of the one before. Chains end at forks. -/
def Formula.windowChain (f : Formula) (filters : NameSet) : Nat :=
  f.recur fun f k =>
    let below := k.children.foldl max 0
    match f.kind with
    | .window w => if w.beforeFilterBy == filters then 1 + below else 0
    | .fork _ => 0
    | _ => below

namespace Normalize

/-- TOTAL calls stand one level apart from the others. -/
def groupingOffset : Grouping Formula → Int
  | .total => -1
  | _ => 0

/-- The tag of a window call. -/
def levelTagOf (above : List Formula) (f : Formula) (w : WindowCall Formula) : LevelTag :=
  let below : Nat := (f.children.map (·.windowChain w.beforeFilterBy)).foldl max 0
  { filters := w.beforeFilterBy
    funcNesting := Int32.ofInt (groupingOffset w.grouping - below)
    forkNesting := Int32.ofInt (min (above.filter Formula.isFork).length Int32.maxValue.toInt) }

/-- The node just above is a parenthesis with a tag. -/
def isTagged (above : List Formula) : Bool :=
  match above.getLast? with
  | some (.mk (.paren _) notes) => notes.level.isSome
  | _ => false

/-- Puts window calls into tagged parentheses. -/
def levelTags : Rule := fun above f => do
  let w ← f.window?
  if isTagged above then none
  else some ((Formula.paren f).withLevel (levelTagOf above f w))

end Normalize

end FormulaSql

import FormulaSql.Formula.Equality

/-!
# Replacing nodes from the bottom up

A rule looks at a node and at the nodes above it and may offer a replacement. A formula is
transformed by offering it to the rule from the leaves up. The rule sees a node with its children
already replaced, but the nodes above it as they were at the start; what it offers is not looked
at again. Whatever comes out the same as it was is left untouched, positions included.
-/

namespace FormulaSql

/-- The replacement for a node, given the nodes above it, outermost first. -/
abbrev Rule := List Formula → Formula → Option Formula

namespace Formula

/-- The formula with everything below its top node transformed. -/
def transformBelow (rule : Rule) (f : Formula) : List Formula → Formula :=
  f.recur fun f k above =>
    let here := above ++ [f]
    let cs := List.zipWith (fun c (below : List Formula → Formula) =>
      let c' := below here
      let c' := (rule here c').getD c'
      if c' == c then c else c') f.children k.children
    if cs == f.children then f else f.withChildren cs

/-- The transformed formula. -/
def transform (rule : Rule) (f : Formula) : Formula :=
  let f' := f.transformBelow rule []
  match rule [] f' with
  | some r => if r == f then f else r
  | none => f'

/-- The rule that puts `replacement` in the place of every node that equals `target`. -/
def replaceRule (target replacement : Formula) : Rule := fun _ f =>
  if f == target then some replacement else none

/-- The formula with `replacement` in the place of every node that equals `target`. -/
def replaceAll (f target replacement : Formula) : Formula :=
  f.transform (replaceRule target replacement)

/-- Applies the rules one after another, each to the whole formula. -/
def transformAll (rules : List Rule) (f : Formula) : Formula :=
  rules.foldl (fun f rule => f.transform rule) f

/-- How often rules are applied in search of a formula they leave alone. -/
def maxRounds : Nat := 16

/-- Applies the rules until nothing changes, at most `rounds` times. -/
def settle (rules : List Rule) : Nat → Formula → Formula
  | 0, f => f
  | rounds + 1, f =>
    let f' := f.transformAll rules
    if f' == f then f' else settle rules rounds f'

end Formula

end FormulaSql

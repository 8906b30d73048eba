import FormulaSql.Formula.Basic

/-!
# Paths into formulas

A path leads from a node to one below it by positions in the list of children.
-/

namespace FormulaSql

/-- Positions of children, from the top down. -/
abbrev Path := List Nat

namespace Formula

/-- The node at a path. -/
def at? (f : Formula) : Path → Option Formula
  | [] => some f
  | i :: p =>
    match f.children[i]? with
    | some c => c.at? p
    | none => none

/-- The formula with the node at a path replaced. -/
def replaceAt? (f : Formula) (r : Formula) : Path → Option Formula
  | [] => some r
  | i :: p =>
    match f.children[i]? with
    | some c => (c.replaceAt? r p).map fun c => f.withChildren (f.children.set i c)
    | none => none

/-- The children that are expressions of their own, each with its path when the node itself stands
at `path`. -/
def autonomousAt (f : Formula) (path : Path) : List (Path × Formula) :=
  f.autonomous.zipIdx.map fun (c, i) => (path ++ [i], c)

end Formula

end FormulaSql

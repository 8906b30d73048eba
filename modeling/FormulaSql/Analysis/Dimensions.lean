import FormulaSql.Analysis.Contents

/-!
# Dimensions

The dimensions an expression is computed at, as they follow from those of its surroundings and the
levels of detail on the way.
-/

namespace FormulaSql

/-- Adds a formula to a list unless it is there. -/
def pushUnique (fs : List Formula) (f : Formula) : List Formula :=
  if fs.contains f then fs else fs ++ [f]

/-- The dimensions that a level of detail gives, when those around it are `outer`. -/
def Lod.resolve (outer : List Formula) : Lod Formula → List Formula
  | .inherited => outer
  | .defaultAggregation => outer
  | .fixed dims => dims.foldl pushUnique []
  | .including dims => dims.foldl pushUnique outer
  | .excluding dims => outer.filter fun d => !dims.contains d

namespace Formula

/-- The level of detail of an aggregation or a fork. -/
def lod? (f : Formula) : Option (Lod Formula) :=
  match f.kind with
  | .fork q => some q.lod
  | .call c => if f.isAggregateCall then some c.lod else none
  | _ => none

/-- The dimensions below the given nodes, outermost first. -/
def contextDimensions (dims : List Formula) (above : List Formula) : List Formula :=
  above.foldl (fun dims f => ((f.lod?).map (Lod.resolve dims)).getD dims) dims

/-- The dimensions of all aggregations that are not inside another one. -/
def topLevelDimensions (f : Formula) (dims : List Formula) : List Formula :=
  let found : List Formula := f.recur fun f k =>
    match f.lod? with
    | some lod => lod.resolve dims
    | none => k.autonomous.flatten
  found.foldl pushUnique []

/-- Every field of the formula is inside one of the dimensions. -/
def isBoundOnlyTo (f : Formula) (dims : List Formula) : Bool :=
  f.recur fun f k => dims.contains f || (f.field?.isNone && k.children.all id)

end Formula

end FormulaSql

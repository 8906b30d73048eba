import FormulaSql.Literal
import FormulaSql.NameSet

/-!
# Formulas

A formula is a tree. What stands at a node is a `Kind`, with a gap of type `α` for each child; a
`Formula` fills the gaps with formulas and adds notes to every node. The children of a node are
read and replaced through one list, whatever fields they stand in.
-/

namespace FormulaSql

/-! ## Parts of nodes -/

/-- The level of detail of an aggregation: the dimensions it is computed at, relative to those of
its surroundings. -/
inductive Lod (α : Type) where
  | inherited
  /-- An aggregation that was put around a measure automatically; it behaves like `inherited`. -/
  | defaultAggregation
  | fixed (dims : List α)
  | including (dims : List α)
  | excluding (dims : List α)
  deriving DecidableEq

/-- A call of a function. -/
structure Call (α : Type) where
  name : String
  args : List α
  lod : Lod α
  /-- Dimensions that a lookup leaves out of its join. -/
  ignored : List α
  /-- Filters that are applied after the call, not before it. -/
  beforeFilterBy : NameSet
  deriving DecidableEq

/-- The rows a window call sees. -/
inductive Grouping (α : Type) where
  | total
  | within (dims : List α)
  | among (dims : List α)
  deriving DecidableEq

/-- A call of a window function. -/
structure WindowCall (α : Type) where
  name : String
  args : List α
  grouping : Grouping α
  ordering : List α
  beforeFilterBy : NameSet
  deriving DecidableEq

/-- One alternative of a conditional block: a condition or a pattern, and the value it selects. -/
structure Branch (α : Type) where
  test : α
  value : α
  deriving DecidableEq

inductive Direction where
  | asc
  | desc
  deriving DecidableEq, Repr

inductive JoinType where
  | left
  | inner
  deriving DecidableEq, Repr

/-- A condition that joins a fork to the query around it. -/
inductive JoinCondition (α : Type) where
  /-- The expression has the same value on both sides. -/
  | same (expr : α)
  /-- The expression on the main side equals another one on the side of the fork. -/
  | pair (expr forkExpr : α)
  deriving DecidableEq

/-- How a filter changes when it is moved into a fork: `source` is replaced by `target`. -/
structure FilterShift (α : Type) where
  source : α
  target : α
  deriving DecidableEq

/-- An expression computed by a sub-query of its own and joined back. -/
structure Fork (α : Type) where
  joinType : JoinType
  result : α
  joining : List (JoinCondition α)
  lod : Lod α
  beforeFilterBy : NameSet
  shifts : List (FilterShift α)
  deriving DecidableEq

/-- What stands at a node. -/
inductive Kind (α : Type) where
  | field (name : String)
  | literal (value : Literal)
  | paren (inner : α)
  | call (c : Call α)
  | window (w : WindowCall α)
  | binary (op : String) (left right : α)
  | unary (op : String) (operand : α)
  | ternary (op : String) (first second third : α)
  | ifBlock (branches : List (Branch α)) (otherwise : α)
  | caseBlock (subject : α) (branches : List (Branch α)) (otherwise : α)
  | ordered (expr : α) (direction : Direction)
  | fork (q : Fork α)
  /-- An error that is reported when the formula is compiled. -/
  | error (message code : String)
  deriving DecidableEq

/-- The place of a window call among calls with the same filters, and the number of forks around
it. -/
structure LevelTag where
  filters : NameSet
  funcNesting : Int32
  forkNesting : Int32
  deriving DecidableEq

/-- Where a node stands in the text it was read from. -/
structure Span where
  start : UInt64
  stop : UInt64
  deriving DecidableEq

/-- What is known about a node besides its kind. -/
structure Notes where
  level : Option LevelTag
  span : Option Span
  deriving DecidableEq

def Notes.none : Notes := ⟨Option.none, Option.none⟩

instance : Inhabited Notes := ⟨Notes.none⟩

inductive Formula where
  | mk (kind : Kind Formula) (notes : Notes)

instance : Inhabited Formula := ⟨.mk (.literal .null) Notes.none⟩

namespace Formula

def kind : Formula → Kind Formula
  | mk k _ => k

def notes : Formula → Notes
  | mk _ n => n

/-- A node without notes. -/
def of (k : Kind Formula) : Formula := mk k Notes.none

def level (f : Formula) : Option LevelTag := f.notes.level

/-- The same node with another level tag. -/
def withLevel (f : Formula) (tag : LevelTag) : Formula :=
  mk f.kind ⟨some tag, f.notes.span⟩

@[simp]
theorem mk_kind_notes (f : Formula) : mk f.kind f.notes = f := by cases f; rfl

end Formula

/-! ## Children -/

namespace Lod

variable {α β : Type}

/-- The dimensions that are named. -/
def dims : Lod α → List α
  | inherited => []
  | defaultAggregation => []
  | fixed ds => ds
  | including ds => ds
  | excluding ds => ds

def withDims : Lod α → List β → Lod β
  | inherited, _ => inherited
  | defaultAggregation, _ => defaultAggregation
  | fixed _, ds => fixed ds
  | including _, ds => including ds
  | excluding _, ds => excluding ds

/-- The dimensions of the surroundings are taken over. -/
def isInherited : Lod α → Bool
  | inherited => true
  | defaultAggregation => true
  | _ => false

def map (f : α → β) (l : Lod α) : Lod β := l.withDims (l.dims.map f)

end Lod

namespace Grouping

variable {α β : Type}

def dims : Grouping α → List α
  | total => []
  | within ds => ds
  | among ds => ds

def withDims : Grouping α → List β → Grouping β
  | total, _ => total
  | within _, ds => within ds
  | among _, ds => among ds

def map (f : α → β) (g : Grouping α) : Grouping β := g.withDims (g.dims.map f)

end Grouping

namespace Branch

variable {α β : Type}

def map (f : α → β) (b : Branch α) : Branch β := ⟨f b.test, f b.value⟩

def parts (b : Branch α) : List α := [b.test, b.value]

end Branch

namespace JoinCondition

variable {α β : Type}

/-- The expressions of the condition, the main side first. -/
def parts : JoinCondition α → List α
  | same e => [e]
  | pair e e' => [e, e']

def map (f : α → β) : JoinCondition α → JoinCondition β
  | same e => same (f e)
  | pair e e' => pair (f e) (f e')

end JoinCondition

namespace FilterShift

variable {α β : Type}

def map (f : α → β) (s : FilterShift α) : FilterShift β := ⟨f s.source, f s.target⟩

def parts (s : FilterShift α) : List α := [s.source, s.target]

end FilterShift

namespace Kind

variable {α β : Type}

/-- The kind with `f` applied to every child. -/
def map (f : α → β) : Kind α → Kind β
  | field n => field n
  | literal v => literal v
  | paren e => paren (f e)
  | call c => call ⟨c.name, c.args.map f, c.lod.map f, c.ignored.map f, c.beforeFilterBy⟩
  | window w => window ⟨w.name, w.args.map f, w.grouping.map f, w.ordering.map f, w.beforeFilterBy⟩
  | binary op l r => binary op (f l) (f r)
  | unary op e => unary op (f e)
  | ternary op a b c => ternary op (f a) (f b) (f c)
  | ifBlock bs e => ifBlock (bs.map (·.map f)) (f e)
  | caseBlock s bs e => caseBlock (f s) (bs.map (·.map f)) (f e)
  | ordered e d => ordered (f e) d
  | fork q =>
    fork ⟨q.joinType, f q.result, q.joining.map (·.map f), q.lod.map f, q.beforeFilterBy,
      q.shifts.map (·.map f)⟩
  | error m c => error m c

/-- All children, in the order in which paths count them. -/
def children : Kind α → List α
  | field _ => []
  | literal _ => []
  | error _ _ => []
  | paren e => [e]
  | ordered e _ => [e]
  | unary _ e => [e]
  | binary _ l r => [l, r]
  | ternary _ a b c => [a, b, c]
  | call c => c.args ++ c.lod.dims ++ c.ignored
  | window w => w.args ++ w.grouping.dims ++ w.ordering
  | ifBlock bs e => bs.flatMap Branch.parts ++ [e]
  | caseBlock s bs e => s :: bs.flatMap Branch.parts ++ [e]
  | fork q =>
    q.result :: q.joining.flatMap JoinCondition.parts ++ q.lod.dims ++
      q.shifts.flatMap FilterShift.parts

theorem children_map (f : α → β) (k : Kind α) : (k.map f).children = k.children.map f := by
  have lod (l : Lod α) : (l.map f).dims = l.dims.map f := by cases l <;> rfl
  have grouping (g : Grouping α) : (g.map f).dims = g.dims.map f := by cases g <;> rfl
  have join (j : JoinCondition α) : (j.map f).parts = j.parts.map f := by cases j <;> rfl
  cases k <;>
    simp [map, children, lod, grouping, join, List.flatMap_map, List.map_flatMap, Branch.parts,
      Branch.map, FilterShift.parts, FilterShift.map]

/-- How many children, counted from the first, are expressions of their own: arguments and
operands, but not dimensions, groupings, orderings and conditions of joins. -/
def autonomousCount : Kind α → Nat
  | call c => c.args.length
  | window w => w.args.length
  | fork _ => 1
  | ordered _ _ => 0
  | k => k.children.length

/-- The children that are expressions of their own. -/
def autonomous (k : Kind α) : List α := k.children.take k.autonomousCount

/-! Filling the gaps again. A feed of new children is consumed from the left, and a gap for which
nothing is left keeps its old child. -/

/-- The next child of a feed. -/
def next (old : α) : StateM (List α) α := fun feed =>
  match feed with
  | [] => (old, [])
  | c :: rest => (c, rest)

def nextAll (olds : List α) : StateM (List α) (List α) := olds.mapM next

def nextLod (l : Lod α) : StateM (List α) (Lod α) := do
  return l.withDims (← nextAll l.dims)

def nextGrouping (g : Grouping α) : StateM (List α) (Grouping α) := do
  return g.withDims (← nextAll g.dims)

def nextBranch (b : Branch α) : StateM (List α) (Branch α) := do
  return ⟨← next b.test, ← next b.value⟩

def nextJoin : JoinCondition α → StateM (List α) (JoinCondition α)
  | .same e => do return .same (← next e)
  | .pair e e' => do return .pair (← next e) (← next e')

def nextShift (s : FilterShift α) : StateM (List α) (FilterShift α) := do
  return ⟨← next s.source, ← next s.target⟩

/-- The kind with its children taken from the feed. -/
def refill : Kind α → StateM (List α) (Kind α)
  | field n => return field n
  | literal v => return literal v
  | error m c => return error m c
  | paren e => return paren (← next e)
  | ordered e d => return ordered (← next e) d
  | unary op e => return unary op (← next e)
  | binary op l r => return binary op (← next l) (← next r)
  | ternary op a b c => return ternary op (← next a) (← next b) (← next c)
  | call c =>
    return call ⟨c.name, ← nextAll c.args, ← nextLod c.lod, ← nextAll c.ignored, c.beforeFilterBy⟩
  | window w =>
    return window
      ⟨w.name, ← nextAll w.args, ← nextGrouping w.grouping, ← nextAll w.ordering, w.beforeFilterBy⟩
  | ifBlock bs e => return ifBlock (← bs.mapM nextBranch) (← next e)
  | caseBlock s bs e => return caseBlock (← next s) (← bs.mapM nextBranch) (← next e)
  | fork q =>
    return fork
      ⟨q.joinType, ← next q.result, ← q.joining.mapM nextJoin, ← nextLod q.lod, q.beforeFilterBy,
        ← q.shifts.mapM nextShift⟩

/-- The kind with other children, given in the order of `children`. -/
def withChildren (k : Kind α) (cs : List α) : Kind α := (k.refill.run cs).1

end Kind

namespace Formula

def children (f : Formula) : List Formula := f.kind.children

def autonomous (f : Formula) : List Formula := f.kind.autonomous

/-- The node with other children; its notes stay. -/
def withChildren (f : Formula) (cs : List Formula) : Formula :=
  mk (f.kind.withChildren cs) f.notes

/-! ## Views of a node -/

def field? (f : Formula) : Option String :=
  match f.kind with
  | .field n => some n
  | _ => none

def literal? (f : Formula) : Option Literal :=
  match f.kind with
  | .literal v => some v
  | _ => none

def call? (f : Formula) : Option (Call Formula) :=
  match f.kind with
  | .call c => some c
  | _ => none

def window? (f : Formula) : Option (WindowCall Formula) :=
  match f.kind with
  | .window w => some w
  | _ => none

def fork? (f : Formula) : Option (Fork Formula) :=
  match f.kind with
  | .fork q => some q
  | _ => none

def isLiteral (f : Formula) : Bool := f.literal?.isSome

/-- The name of a called function or of an operator. -/
def operation? (f : Formula) : Option String :=
  match f.kind with
  | .call c => some c.name
  | .window w => some w.name
  | .binary op _ _ => some op
  | .unary op _ => some op
  | .ternary op _ _ _ => some op
  | _ => none

/-- Arguments of a call or operands of an operator. -/
def operands (f : Formula) : List Formula :=
  match f.kind with
  | .call c => c.args
  | .window w => w.args
  | .binary _ l r => [l, r]
  | .unary _ e => [e]
  | .ternary _ a b c => [a, b, c]
  | _ => []

end Formula

end FormulaSql

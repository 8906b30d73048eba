import FormulaSql.Function.Logic
import FormulaSql.Simplify.Constants

/-!
# Pruning branches

Rules for conditionals with constant conditions, for an aggregation of an aggregation, and for
comparisons of truth values with zero and one.
-/

namespace FormulaSql.Simplify

/-! ## Conditionals -/

/-- The branches that are left of a conditional, and what comes after them. -/
structure Pruned where
  branches : List (Branch Formula)
  otherwise : Formula

/-- The condition is the literal TRUE. -/
def isTrue (f : Formula) : Bool := f.literal? == some (.boolean true)

/-- Branches whose condition is a literal go away; the first one that is TRUE ends the list. -/
def pruneIf (otherwise : Formula) : List (Branch Formula) → Pruned
  | [] => ⟨[], otherwise⟩
  | b :: bs =>
    if isTrue b.test then ⟨[], b.value⟩
    else
      let rest := pruneIf otherwise bs
      if b.test.isLiteral then rest else { rest with branches := b :: rest.branches }

/-- Branches whose pattern is a literal go away; the first one that equals the subject ends the
list. -/
def pruneCase (subject : Literal) (otherwise : Formula) : List (Branch Formula) → Pruned
  | [] => ⟨[], otherwise⟩
  | b :: bs =>
    match b.test.literal? with
    | some v => if v.same subject then ⟨[], b.value⟩ else pruneCase subject otherwise bs
    | none =>
      let rest := pruneCase subject otherwise bs
      { rest with branches := b :: rest.branches }

/-- Arguments taken two by two as branches, and the last one apart; `none` for an even number. -/
def branchArgs {α : Type} : List α → Option (List (Branch α) × α)
  | [] => none
  | [otherwise] => some ([], otherwise)
  | test :: value :: rest => do
    let (bs, otherwise) ← branchArgs rest
    return (⟨test, value⟩ :: bs, otherwise)

/-- A conditional with the branches that are left: the other value if there are none, and nothing
if all are left. -/
def rebuilt (before : List (Branch Formula)) (p : Pruned)
    (build : List (Branch Formula) → Formula → Formula) : Option Formula :=
  if p.branches.length == before.length then none
  else if p.branches.isEmpty then some p.otherwise
  else some (build p.branches p.otherwise)

/-- A call with other arguments. It has no ignored dimensions and no notes. -/
def callWithArgs (c : Call Formula) (args : List Formula) : Formula :=
  .callWith c.name args c.lod c.beforeFilterBy

/-- Prunes the branches of IF and CASE, in calls and in blocks. -/
def conditional : Rule := fun _ f =>
  match f.kind with
  | .call c =>
    match c.name.toLower with
    | "if" => do
      let (bs, otherwise) ← branchArgs c.args
      rebuilt bs (pruneIf otherwise bs) fun bs e =>
        callWithArgs c (bs.flatMap Branch.parts ++ [e])
    | "case" =>
      match c.args with
      | subject :: rest => do
        let v ← subject.literal?
        let (bs, otherwise) ← branchArgs rest
        rebuilt bs (pruneCase v otherwise bs) fun bs e =>
          callWithArgs c (subject :: bs.flatMap Branch.parts ++ [e])
      | [] => none
    | _ => none
  | .ifBlock bs otherwise =>
    rebuilt bs (pruneIf otherwise bs) fun bs e => .mk (.ifBlock bs e) f.notes
  | .caseBlock subject bs otherwise => do
    let v ← subject.literal?
    rebuilt bs (pruneCase v otherwise bs) fun bs e => .mk (.caseBlock subject bs e) f.notes
  | _ => none

/-! ## Aggregations of aggregations -/

/-- Aggregations that give back a single value. -/
def collapsible : List String := ["sum", "avg", "min", "max"]

/-- An aggregation of one value per group, at the same level of detail, is that value. -/
def doubleAggregation : Rule := fun _ f => do
  let outer ← f.call?
  match outer.args with
  | [x] => do
    let inner ← x.call?
    if collapsible.contains outer.name.toLower && outer.lod.isInherited && outer.ignored.isEmpty &&
        x.isAggregateCall && inner.lod.isInherited &&
        (outer.beforeFilterBy.isEmpty || outer.beforeFilterBy == inner.beforeFilterBy)
    then some x
    else none
  | _ => none

/-! ## Truth values in filters -/

/-- Operators with the one that holds exactly when they do not. -/
def inversions : List (String × String) :=
  [(">", "<="), (">=", "<"), ("<", ">="), ("<=", ">"), ("==", "!="), ("!=", "=="),
   ("in", "notin"), ("notin", "in")]

/-- A literal that stands for a truth value. -/
def zeroOne? (f : Formula) : Option Bool :=
  match f.literal? with
  | some (.boolean b) => some b
  | some (.integer n) => if n == 0 then some false else if n == 1 then some true else none
  | some (.float x) => if x.isZero then some false else if x.isOne then some true else none
  | _ => none

/-- The formula is an operation with a truth value. -/
def isBooleanOperation (f : Formula) : Bool :=
  match f.kind with
  | .binary op _ _ => op == "and" || op == "or" || (inversions.lookup op).isSome
  | _ => false

/-- The operation that holds exactly when the given one does not. -/
def inverted (f : Formula) : Formula :=
  match f.kind with
  | .binary op l r =>
    match inversions.lookup op with
    | some op' => .binary op' l r
    | none => .unary "not" f
  | _ => .unary "not" f

/-- A comparison of a boolean operation with zero or one is the operation or its inverse. -/
def zeroOne : Rule := fun _ f =>
  match f.kind with
  | .binary op l r => do
    let negated ←
      match op with
      | "==" => some false
      | "!=" => some true
      | _ => none
    let (operation, value) ←
      if isBooleanOperation l then (zeroOne? r).map (l, ·)
      else if isBooleanOperation r then (zeroOne? l).map (r, ·)
      else none
    if value != negated then some operation else some (inverted operation)
  | _ => none

end FormulaSql.Simplify

import FormulaSql.Analysis.Contents
import FormulaSql.Formula.Build
import FormulaSql.Formula.Transform

/-!
# Folding constants

Rules that compute what is known before the query runs. Each looks at one node; a folded node
keeps its notes.
-/

namespace FormulaSql.Simplify

/-- A literal in the place of a node. -/
def folded (old : Formula) (v : Literal) : Formula := .mk (.literal v) old.notes

/-! ## Comparisons -/

/-- Operators for equality with, for each, whether it is negated and whether it treats NULL as a
value. -/
def equalityOperators : List (String × Bool × Bool) :=
  [("==", false, false), ("_==", false, true), ("!=", true, false), ("_!=", true, true)]

/-- Whether two literals are equal. With NULL there is no answer unless NULL counts as a value,
and none for literals of different kinds. -/
def literalsEqual? (nullSafe : Bool) (a b : Literal) : Option Bool :=
  if a == .null || b == .null then if nullSafe then some (a.same b) else none
  else if a.baseType == b.baseType then some (a.same b)
  else none

/-- Folds a comparison of two literals. -/
def comparison : Rule := fun _ f =>
  match f.kind with
  | .binary op l r => do
    let (negated, nullSafe) ← equalityOperators.lookup op
    let equal ← literalsEqual? nullSafe (← l.literal?) (← r.literal?)
    return folded f (.boolean (equal != negated))
  | _ => none

/-! ## Arithmetic -/

/-- The integer, if it is one of 64 bits. -/
def int64? (n : Int) : Option Literal :=
  if Int64.minValue.toInt ≤ n && n ≤ Int64.maxValue.toInt then some (.integer (Int64.ofInt n))
  else none

/-- Arithmetic on integers. A result that does not fit is not folded; a quotient is a float. -/
def integerMath (op : String) (a b : Int64) : Option Literal :=
  match op with
  | "+" => int64? (a.toInt + b.toInt)
  | "-" => int64? (a.toInt - b.toInt)
  | "*" => int64? (a.toInt * b.toInt)
  | "/" =>
    if b == 0 then none
    else some (.float ((Double.ofInt a.toInt).div (Double.ofInt b.toInt)))
  | _ => none

/-- Arithmetic on floats. -/
def floatMath (op : String) (a b : Double) : Option Double :=
  match op with
  | "+" => some (a.add b)
  | "-" => some (a.sub b)
  | "*" => some (a.mul b)
  | "/" => if b.isZero then none else some (a.div b)
  | _ => none

/-- A numeric literal as a float. -/
def number? : Literal → Option Double
  | .integer n => some (Double.ofInt n.toInt)
  | .float x => some x
  | _ => none

/-- Arithmetic on two literals; with floats the result has to be finite. -/
def math? (op : String) : Literal → Literal → Option Literal
  | .integer a, .integer b => integerMath op a b
  | a, b => do
    let x ← floatMath op (← number? a) (← number? b)
    if x.isFinite then some (.float x) else none

/-- Folds arithmetic on two literals. -/
def arithmetic : Rule := fun _ f =>
  match f.kind with
  | .binary op l r => do
    return folded f (← math? op (← l.literal?) (← r.literal?))
  | _ => none

/-! ## Logic -/

/-- Drops a constant operand of AND and OR, or lets it decide. -/
def connective : Rule := fun _ f =>
  match f.kind with
  | .binary op l r => do
    let (constant, other) ←
      match l.literal?, r.literal? with
      | some v, _ => some (v, r)
      | none, some v => some (v, l)
      | none, none => none
    match op with
    | "and" => if constant.isTruthy then some other else some (folded f (.boolean false))
    | "or" => if constant.isTruthy then some (folded f (.boolean true)) else some other
    | _ => none
  | _ => none

/-- A function of one argument whose value at a literal is known, in some dialects. -/
structure ConstantTest where
  name : String
  dialects : Dialects
  holds : Literal → Bool

def constantTests : List ConstantTest := [⟨"isnull", .any, (· == .null)⟩]

/-- The test of this name for a dialect; the one for the fewest dialects goes first. -/
def constantTest? (dialect : Dialects) (name : String) : Option ConstantTest :=
  let candidates := constantTests.filter fun t =>
    t.name == name.toLower &&
      (t.dialects == .any || (!dialect.isEmpty && t.dialects.contains dialect))
  (candidates.mergeSort fun a b => a.dialects.size ≤ b.dialects.size).head?

/-- Folds a test of a literal. -/
def test (dialect : Dialects) : Rule := fun _ f => do
  let c ← f.call?
  match c.args with
  | [x] => do
    let v ← x.literal?
    let t ← constantTest? dialect c.name
    return folded f (.boolean (t.holds v))
  | _ => none

end FormulaSql.Simplify

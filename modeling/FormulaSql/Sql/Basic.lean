import FormulaSql.Literal
import FormulaSql.Text.Case

/-!
# SQL expressions

The expressions that formulas become. They are common to all dialects; what differs between
dialects is which functions and forms are chosen.
-/

namespace FormulaSql

/-- One end of a window frame, counted in rows from the current one. -/
inductive FrameBound where
  | unboundedPreceding
  | preceding (rows : Nat)
  | currentRow
  | following (rows : Nat)
  | unboundedFollowing
  deriving DecidableEq, Repr

/-- The rows of a window that a function sees. -/
structure Frame where
  start : FrameBound
  stop : FrameBound
  deriving DecidableEq, Repr

namespace FrameBound

/-- The row at an offset from the current one, or `unbounded` without an offset. -/
def atOffset (unbounded : FrameBound) : Option Int64 → FrameBound
  | none => unbounded
  | some n =>
    if n.toInt = 0 then currentRow
    else if n.toInt < 0 then preceding n.toInt.natAbs
    else following n.toInt.natAbs

end FrameBound

namespace Frame

/-- The whole window. -/
def full : Frame := ⟨.unboundedPreceding, .unboundedFollowing⟩

/-- The frame from one row offset to another; a missing offset leaves its side open. -/
def rows (start stop : Option Int64) : Frame :=
  ⟨.atOffset .unboundedPreceding start, .atOffset .unboundedFollowing stop⟩

end Frame

/-- An SQL expression. -/
inductive Sql where
  | column (table : Option String) (name : String)
  | literal (value : Literal)
  | func (name : String) (args : List Sql)
  /-- A call that sees each combination of arguments once. -/
  | distinctFunc (name : String) (args : List Sql)
  | binary (op : String) (left right : Sql)
  | prefixOp (op : String) (operand : Sql)
  | postfixOp (op : String) (operand : Sql)
  | between (expr low high : Sql) (negated : Bool)
  | inList (expr : Sql) (items : List Sql) (negated : Bool)
  | caseOf (operand : Option Sql) (whens : List (Sql × Sql)) (otherwise : Option Sql)
  | cast (expr : Sql) (type : String)
  | array (items : List Sql)
  | ordered (expr : Sql) (descending : Bool)
  | windowed (func : Sql) (partition order : List Sql) (frame : Option Frame)
  | grouped (inner : Sql)
  /-- A fragment that is written as it is. -/
  | raw (text : String)

instance : Inhabited Sql := ⟨.literal .null⟩

namespace Sql

def null : Sql := literal .null

def int (n : Int64) : Sql := literal (.integer n)

def str (s : String) : Sql := literal (.string s)

def and (a b : Sql) : Sql := binary "AND" a b

def or (a b : Sql) : Sql := binary "OR" a b

def isNull (a : Sql) : Sql := postfixOp "IS NULL" a

def literal? : Sql → Option Literal
  | literal v => some v
  | _ => none

/-- The text of a text literal, in lower case. -/
def lowerText? (e : Sql) : Option String :=
  match e.literal? with
  | some (.string s) => some (Text.lower s)
  | _ => none

/-- The value of an integer literal. -/
def int? (e : Sql) : Option Int64 :=
  match e.literal? with
  | some (.integer n) => some n
  | _ => none

end Sql

end FormulaSql

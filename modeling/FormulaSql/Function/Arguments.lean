import FormulaSql.Function.Definition
import FormulaSql.Sql.Text

/-!
# Arguments of definitions

The type lists that definitions share, and the plain ways to write a call.
-/

namespace FormulaSql

namespace TypeFamily

def of (bs : List BaseType) : List DataType := bs.map DataType.plain

def ofConst (bs : List BaseType) : List DataType := bs.map DataType.const

def numbers : List DataType := of [.integer, .float]
def integers : List DataType := of [.integer]
def floats : List DataType := of [.float]
def booleans : List DataType := of [.boolean]
def strings : List DataType := of [.string]
def constStrings : List DataType := ofConst [.string]
def constIntegers : List DataType := ofConst [.integer]
def dates : List DataType := of [.date]
def datetimes : List DataType := of [.datetime, .datetimeTz, .genericDatetime]

/-- Dates and all kinds of date-times. -/
def datelike : List DataType := of [.date, .datetime, .datetimeTz, .genericDatetime]

def arrays : List DataType := of [.arrayInt, .arrayFloat, .arrayStr]
def every : List DataType := of BaseType.all

/-- Types whose values can be ordered. -/
def ordered : List DataType :=
  of [.boolean, .integer, .float, .string, .date, .datetime, .datetimeTz, .genericDatetime, .uuid]

end TypeFamily

namespace Emit

/-- How a call becomes SQL, given its arguments. -/
abbrev Writer := List TypedSql → Except FormulaError Sql

/-- The argument at a position, counted from zero. -/
def arg (args : List TypedSql) (i : Nat) : Except FormulaError Sql :=
  match args[i]? with
  | some a => .ok a.sql
  | none => .error (.unsupportedNode ("missing argument #" ++ toString (i + 1)))

def exprs (args : List TypedSql) : List Sql := args.map TypedSql.sql

/-- A call of an SQL function with the same arguments. -/
def call (name : String) : Writer := fun args => .ok (.func name (exprs args))

/-- An SQL operator between the first two arguments. -/
def infixOp (op : String) : Writer := fun args => do
  return .binary op (← arg args 0) (← arg args 1)

/-- An SQL operator before the first argument. -/
def prefixOp (op : String) : Writer := fun args => do
  return .prefixOp op (← arg args 0)

/-- A conversion of the first argument. -/
def cast (type : String) : Writer := fun args => do
  return .cast (← arg args 0) type

/-- The SQL of `writer` in parentheses after `NOT`. -/
def notGrouped (writer : Writer) : Writer := fun args => do
  return .prefixOp "NOT" (.grouped (← writer args))

end Emit

namespace Variant

/-- A variant for every dialect. -/
def forAny (emit : Emit.Writer) : Variant := ⟨.any, emit⟩

/-- The variant other dialects fall back to. -/
def baseline (emit : Emit.Writer) : Variant := ⟨.dummy, emit⟩

def forClickhouse (emit : Emit.Writer) : Variant := ⟨.clickhouse, emit⟩

end Variant

end FormulaSql

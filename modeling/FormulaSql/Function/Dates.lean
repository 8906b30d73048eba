import FormulaSql.Function.Arguments
import FormulaSql.Function.TimeUnit

/-!
# Functions on dates and times
-/

namespace FormulaSql.Function

open TypeFamily Emit

/-- The time unit at a position; a day without one. -/
def unitArg (args : List TypedSql) (i : Nat) : Except FormulaError TimeUnit :=
  match args[i]? with
  | none => .ok .day
  | some a =>
    match a.sql.lowerText? with
    | some s => TimeUnit.parse s
    | none => .error (.unsupportedNode "time unit must be a string constant")

/-- The number at a position; one without it. -/
def numberArg (args : List TypedSql) (i : Nat) : Sql :=
  match args[i]? with
  | some a => a.sql
  | none => .int 1

/-- How far a date is shifted. -/
structure DateShift where
  value : Sql
  unit : TimeUnit
  number : Sql

/-- Reads `value, unit, number` or `value, number`. -/
def dateShift (args : List TypedSql) : Except FormulaError DateShift := do
  let value ← arg args 0
  let byDays := args[1]?.filter fun a => a.type.base == .integer
  match byDays with
  | some a => return ⟨value, .day, a.sql⟩
  | none => return ⟨value, ← unitArg args 1, numberArg args 2⟩

/-- One unit as an SQL interval; there is none for quarters. -/
def interval : TimeUnit → String
  | .quarter => "INTERVAL '3 month'"
  | u => "INTERVAL '1 " ++ u.name ++ "'"

def shiftByInterval : Writer := fun args => do
  let s ← dateShift args
  return .grouped (.binary "+" s.value (.binary "*" s.number (.raw (interval s.unit))))

def shiftClickhouse : Writer := fun args => do
  let s ← dateShift args
  return .func ("add" ++ s.unit.capitalName ++ "s") [s.value, s.number]

def shiftMssql : Writer := fun args => do
  let s ← dateShift args
  return .func "DATEADD" [.raw s.unit.name.toUpper, s.number, s.value]

def truncate : Writer := fun args => do
  let unit ← unitArg args 1
  return .func "DATE_TRUNC" [.str unit.name, ← arg args 0]

/-- The function that truncates to a unit. -/
def truncateName : TimeUnit → String
  | .day => "toStartOfDay"
  | .week => "toMonday"
  | u => "toStartOf" ++ u.capitalName

def truncateClickhouse : Writer := fun args => do
  let unit ← unitArg args 1
  return .func (truncateName unit) [← arg args 0]

def extractPart (part : String) : Writer := fun args => do
  return .func "EXTRACT" [.raw (part ++ " FROM " ++ (← arg args 0).text)]

/-- A part of a date as an integer. -/
def datePart (name part function : String) : Definition :=
  { name, argNames := ["datetime"], arity := .exact 1, category := .datetime
    argTypes := [.forAll datelike]
    returns := .fixed (.plain .integer)
    variants := [.baseline (extractPart part), .forClickhouse (call function)] }

/-- The current moment: a keyword by default, a function in one dialect. -/
def currentMoment (name : String) (type : BaseType) (keyword : String) : Definition :=
  { name, arity := .exact 0, category := .datetime
    returns := .fixed (.plain type)
    variants :=
      [.baseline (fun _ => .ok (.raw keyword)), .forClickhouse (fun _ => .ok (.func name []))] }

def dateFunctions : List Definition :=
  [{ name := "dateadd", argNames := ["datetime", "unit", "number"], arity := .range 1 3
     category := .datetime
     argTypes :=
       [.sequence [datelike], .sequence [datelike, constStrings], .sequence [datelike, integers],
        .sequence [datelike, constStrings, integers]]
     returns := .ofArgWithParams 0
     variants :=
       [.baseline shiftByInterval, .forClickhouse shiftClickhouse, ⟨.mssql, shiftMssql⟩] },
   { name := "datetrunc", argNames := ["datetime", "unit"], arity := .exact 2
     category := .datetime
     argTypes := [.sequence [datelike, constStrings]]
     returns := .ofArgWithParams 0
     variants := [⟨.dummy ||| .postgresql, truncate⟩, .forClickhouse truncateClickhouse] },
   datePart "day" "DAY" "toDayOfMonth",
   datePart "month" "MONTH" "toMonth",
   datePart "quarter" "QUARTER" "toQuarter",
   datePart "year" "YEAR" "toYear",
   currentMoment "now" .datetime "CURRENT_TIMESTAMP",
   currentMoment "today" .date "CURRENT_DATE"]

end FormulaSql.Function

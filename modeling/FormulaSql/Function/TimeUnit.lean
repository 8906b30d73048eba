import FormulaSql.Error

/-!
# Time units

The units by which dates are shifted and truncated.
-/

namespace FormulaSql

inductive TimeUnit where
  | second
  | minute
  | hour
  | day
  | week
  | month
  | quarter
  | year
  deriving DecidableEq, Repr

namespace TimeUnit

def all : List TimeUnit := [second, minute, hour, day, week, month, quarter, year]

def name : TimeUnit → String
  | second => "second"
  | minute => "minute"
  | hour => "hour"
  | day => "day"
  | week => "week"
  | month => "month"
  | quarter => "quarter"
  | year => "year"

/-- The name with a capital letter. -/
def capitalName : TimeUnit → String
  | second => "Second"
  | minute => "Minute"
  | hour => "Hour"
  | day => "Day"
  | week => "Week"
  | month => "Month"
  | quarter => "Quarter"
  | year => "Year"

/-- A text without one final `s`. -/
def singular (s : String) : String :=
  match s.toList.reverse with
  | 's' :: rest => String.ofList rest.reverse
  | _ => s

/-- The unit of this name, in singular or plural. The case of ASCII letters and blanks around the
name do not matter. -/
def parse (s : String) : Except FormulaError TimeUnit :=
  match all.find? fun u => u.name == singular (Text.trimmed s).toLower with
  | some u => .ok u
  | none => .error (.validation (.unknownTimeUnit s))

end TimeUnit

end FormulaSql

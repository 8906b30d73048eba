import FormulaSql.Sql.Basic

/-!
# The text of SQL expressions

Nothing is put in parentheses here: an expression that needs them holds a `grouped` node.
-/

namespace FormulaSql

def FrameBound.text : FrameBound → String
  | unboundedPreceding => "UNBOUNDED PRECEDING"
  | preceding n => toString n ++ " PRECEDING"
  | currentRow => "CURRENT ROW"
  | following n => toString n ++ " FOLLOWING"
  | unboundedFollowing => "UNBOUNDED FOLLOWING"

def Frame.text (f : Frame) : String :=
  "ROWS BETWEEN " ++ f.start.text ++ " AND " ++ f.stop.text

namespace Sql

def commaList (items : List String) : String := ", ".intercalate items

/-- The word before a negated test. -/
def negation (negated : Bool) : String := if negated then "NOT " else ""

/-- The clauses of a window; those that are empty are left out. -/
def windowClauses (partition order : List String) (frame : Option Frame) : List String :=
  (if partition.isEmpty then [] else ["PARTITION BY " ++ commaList partition]) ++
    (if order.isEmpty then [] else ["ORDER BY " ++ commaList order]) ++
    frame.toList.map Frame.text

mutual

/-- The text of an expression. -/
def text : Sql → String
  | column none name => "\"" ++ name ++ "\""
  | column (some table) name => table ++ ".\"" ++ name ++ "\""
  | literal v => v.sqlText
  | func name args => name ++ "(" ++ commaList (texts args) ++ ")"
  | distinctFunc name args => name ++ "(DISTINCT " ++ commaList (texts args) ++ ")"
  | binary op l r => text l ++ " " ++ op ++ " " ++ text r
  | prefixOp op e => op ++ " " ++ text e
  | postfixOp op e => text e ++ " " ++ op
  | between e low high negated =>
    text e ++ " " ++ negation negated ++ "BETWEEN " ++ text low ++ " AND " ++ text high
  | inList e items negated =>
    text e ++ " " ++ negation negated ++ "IN (" ++ commaList (texts items) ++ ")"
  | caseOf operand whens otherwise =>
    "CASE" ++ optionText " " operand ++ String.join (whenTexts whens) ++
      optionText " ELSE " otherwise ++ " END"
  | cast e type => "CAST(" ++ text e ++ " AS " ++ type ++ ")"
  | array items => "ARRAY[" ++ commaList (texts items) ++ "]"
  | ordered e true => text e ++ " DESC"
  | ordered e false => text e ++ " ASC"
  | windowed f partition order frame =>
    text f ++ " OVER (" ++
      " ".intercalate (windowClauses (texts partition) (texts order) frame) ++ ")"
  | grouped e => "(" ++ text e ++ ")"
  | raw s => s

def texts : List Sql → List String
  | [] => []
  | e :: es => text e :: texts es

/-- The text of an optional part after its keyword. -/
def optionText (keyword : String) : Option Sql → String
  | none => ""
  | some e => keyword ++ text e

def whenTexts : List (Sql × Sql) → List String
  | [] => []
  | w :: ws => whenText w :: whenTexts ws

def whenText : Sql × Sql → String
  | (test, value) => " WHEN " ++ text test ++ " THEN " ++ text value

end

end Sql

end FormulaSql

import FormulaSql.Formula.Recursion
import FormulaSql.Text.Case

/-!
# The text of a formula

How a formula is shown in messages and listings.
-/

namespace FormulaSql

def commaSeparated (items : List String) : String := ", ".intercalate items

/-- The clause that names the filters applied later; empty for an empty set. -/
def beforeFilterByText (names : NameSet) : String :=
  if names.isEmpty then ""
  else " BEFORE FILTER BY " ++ commaSeparated (names.toList.map fun n => "[" ++ n ++ "]")

def Lod.text : Lod String → String
  | .fixed ds => " FIXED " ++ commaSeparated ds
  | .including ds => " INCLUDE " ++ commaSeparated ds
  | .excluding ds => " EXCLUDE " ++ commaSeparated ds
  | _ => ""

def Grouping.text : Grouping String → String
  | .total => " TOTAL"
  | .within ds => " WITHIN " ++ commaSeparated ds
  | .among ds => " AMONG " ++ commaSeparated ds

/-- A clause with a list of items; empty for an empty list. -/
def clauseText (keyword : String) (items : List String) : String :=
  if items.isEmpty then "" else keyword ++ commaSeparated items

/-- The text of a node whose children are shown as given. -/
def Kind.text : Kind String → String
  | .field n => "[" ++ n ++ "]"
  | .literal v => v.text
  | .paren e => "(" ++ e ++ ")"
  | .ordered e .asc => e ++ " ASC"
  | .ordered e .desc => e ++ " DESC"
  | .unary op e => Text.upper op ++ "(" ++ e ++ ")"
  | .binary op l r => l ++ " " ++ op ++ " " ++ r
  | .ternary op a b c => Text.upper op ++ "(" ++ commaSeparated [a, b, c] ++ ")"
  | .call c =>
    Text.upper c.name ++ "(" ++ commaSeparated c.args ++ c.lod.text ++
      clauseText " IGNORE DIMENSIONS " c.ignored ++ beforeFilterByText c.beforeFilterBy ++ ")"
  | .window w =>
    Text.upper w.name ++ "(" ++ commaSeparated w.args ++ w.grouping.text ++
      clauseText " ORDER BY " w.ordering ++ beforeFilterByText w.beforeFilterBy ++ ")"
  | .ifBlock bs e =>
    " ELSEIF".intercalate (bs.map fun b => " " ++ b.test ++ " THEN " ++ b.value)
      |> fun branches => (if bs.isEmpty then "" else "IF" ++ branches) ++ " ELSE " ++ e ++ " END"
  | .caseBlock s bs e =>
    "CASE " ++ s ++ String.join (bs.map fun b => " WHEN " ++ b.test ++ " THEN " ++ b.value) ++
      " ELSE " ++ e ++ " END"
  | .fork q => "QUERY_FORK(" ++ q.result ++ ")"
  | .error m _ => "#ERROR(" ++ m ++ ")"

/-- The text of a formula. -/
def Formula.text (f : Formula) : String := f.recur fun _ k => k.text

end FormulaSql

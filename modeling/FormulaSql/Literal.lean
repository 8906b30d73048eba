import FormulaSql.Calendar
import FormulaSql.DataType
import FormulaSql.Number.Shortest
import FormulaSql.Text.Quoted

/-!
# Literals

The constants a formula can hold, with their type, their truth value and their text.
-/

namespace FormulaSql

inductive Literal where
  | null
  | integer (n : Int64)
  | float (x : Double)
  | boolean (b : Bool)
  | string (s : String)
  | date (d : Date)
  | datetime (dt : DateTime)
  | datetimeTz (dt : DateTime) (zone : String)
  | genericDatetime (dt : DateTime)
  | geopoint (s : String)
  | geopolygon (s : String)
  | uuid (s : String)
  | arrayInt (xs : List Int64)
  | arrayFloat (xs : List Double)
  | arrayStr (xs : List String)
  | treeStr (xs : List String)
  deriving DecidableEq

namespace Literal

/-- The base type of a literal. -/
def baseType : Literal → BaseType
  | null => .null
  | integer _ => .integer
  | float _ => .float
  | boolean _ => .boolean
  | string _ => .string
  | date _ => .date
  | datetime _ => .datetime
  | datetimeTz _ _ => .datetimeTz
  | genericDatetime _ => .genericDatetime
  | geopoint _ => .geopoint
  | geopolygon _ => .geopolygon
  | uuid _ => .uuid
  | arrayInt _ => .arrayInt
  | arrayFloat _ => .arrayFloat
  | arrayStr _ => .arrayStr
  | treeStr _ => .treeStr

/-- The truth value of a literal: NULL, zeros, FALSE, the empty text and the empty list are false,
and everything else is true. -/
def isTruthy : Literal → Bool
  | null => false
  | integer n => n != 0
  | float x => !x.isZero
  | boolean b => b
  | string s => s != ""
  | arrayInt xs => !xs.isEmpty
  | arrayFloat xs => !xs.isEmpty
  | arrayStr xs => !xs.isEmpty
  | treeStr xs => !xs.isEmpty
  | _ => true

/-- One representative for all literals that compare equal; only floats have more than one form. -/
def canonical : Literal → Literal
  | float x => float x.canonical
  | arrayFloat xs => arrayFloat (xs.map Double.canonical)
  | l => l

/-- The two literals are the same kind of value and compare equal. -/
def same (a b : Literal) : Bool := a.canonical == b.canonical

/-- A text in single quotes, each quote inside it preceded by `mark`. -/
def singleQuoted (mark : Char) (s : String) : String :=
  String.ofList ('\'' :: s.toList.flatMap (fun c => if c = '\'' then [mark, c] else [c]) ++ ['\''])

def integerText (n : Int64) : String := toString n.toInt

/-- The literal as a formula shows it. -/
def text : Literal → String
  | null => "NULL"
  | integer n => integerText n
  | float x => x.text
  | boolean true => "TRUE"
  | boolean false => "FALSE"
  | string s => singleQuoted '\\' s
  | date d => "#" ++ d.text ++ "#"
  | datetime dt => "#" ++ dt.text ' ' ++ "#"
  | genericDatetime dt => "#" ++ dt.text ' ' ++ "#"
  | datetimeTz dt zone => "#" ++ dt.text ' ' ++ " " ++ zone ++ "#"
  | geopoint s => s
  | geopolygon s => s
  | uuid s => "'" ++ s ++ "'"
  | arrayInt xs => Text.bracketed (xs.map integerText)
  | arrayFloat xs => Text.bracketed (xs.map Double.text)
  | arrayStr xs => Text.bracketed (xs.map Text.quoted)
  | treeStr xs => Text.bracketed (xs.map Text.quoted)

/-- The literal as SQL shows it. -/
def sqlText : Literal → String
  | string s => singleQuoted '\'' s
  | uuid s => singleQuoted '\'' s
  | date d => "DATE '" ++ d.text ++ "'"
  | datetime dt => "TIMESTAMP '" ++ dt.text ' ' ++ "'"
  | genericDatetime dt => "TIMESTAMP '" ++ dt.text ' ' ++ "'"
  | datetimeTz dt zone => "TIMESTAMP '" ++ dt.text ' ' ++ "' AT TIME ZONE '" ++ zone ++ "'"
  | arrayInt xs => "ARRAY" ++ Text.bracketed (xs.map integerText)
  | arrayFloat xs => "ARRAY" ++ Text.bracketed (xs.map Double.text)
  | arrayStr xs => "ARRAY" ++ Text.bracketed (xs.map (singleQuoted '\''))
  | treeStr xs => "ARRAY" ++ Text.bracketed (xs.map (singleQuoted '\''))
  | l => l.text

end Literal

end FormulaSql

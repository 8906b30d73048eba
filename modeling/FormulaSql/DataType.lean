/-!
# Data types

The types of formula values. Every type comes in two grades: a plain one, and a constant one for
values that are known before the query runs. A constant is accepted wherever a plain value of its
type is, never the other way round.
-/

namespace FormulaSql

/-- What a value is, whether or not it is known in advance. -/
inductive BaseType where
  | integer
  | float
  | string
  | date
  | datetime
  | genericDatetime
  | datetimeTz
  | boolean
  | geopoint
  | geopolygon
  | uuid
  | markup
  | treeStr
  | arrayInt
  | arrayFloat
  | arrayStr
  | null
  deriving DecidableEq, Repr

namespace BaseType

def all : List BaseType :=
  [integer, float, string, date, datetime, genericDatetime, datetimeTz, boolean, geopoint,
   geopolygon, uuid, markup, treeStr, arrayInt, arrayFloat, arrayStr, null]

def name : BaseType → String
  | integer => "INTEGER"
  | float => "FLOAT"
  | string => "STRING"
  | date => "DATE"
  | datetime => "DATETIME"
  | genericDatetime => "GENERICDATETIME"
  | datetimeTz => "DATETIMETZ"
  | boolean => "BOOLEAN"
  | geopoint => "GEOPOINT"
  | geopolygon => "GEOPOLYGON"
  | uuid => "UUID"
  | markup => "MARKUP"
  | treeStr => "TREE_STR"
  | arrayInt => "ARRAY_INT"
  | arrayFloat => "ARRAY_FLOAT"
  | arrayStr => "ARRAY_STR"
  | null => "NULL"

/-- Implicit widening: booleans count as numbers, integers as floats, date-like values as generic
date-times, and shapes and markup as text. -/
def widensTo (a b : BaseType) : Bool :=
  a == b ||
    match a, b with
    | boolean, integer => true
    | boolean, float => true
    | integer, float => true
    | date, genericDatetime => true
    | datetime, genericDatetime => true
    | datetimeTz, genericDatetime => true
    | geopoint, string => true
    | geopolygon, string => true
    | markup, string => true
    | _, _ => false

end BaseType

/-- A base type and its grade. -/
structure DataType where
  base : BaseType
  isConst : Bool
  deriving DecidableEq, Repr

namespace DataType

/-- The plain grade of a base type. -/
def plain (b : BaseType) : DataType := ⟨b, false⟩

/-- The constant grade of a base type. -/
def const (b : BaseType) : DataType := ⟨b, true⟩

instance : Coe BaseType DataType := ⟨plain⟩

def nonConst (t : DataType) : DataType := plain t.base

def constVersion (t : DataType) : DataType := const t.base

def isArray (t : DataType) : Bool :=
  t.base == .arrayInt || t.base == .arrayFloat || t.base == .arrayStr

def isNull (t : DataType) : Bool := t.base == .null

def name (t : DataType) : String :=
  if t.isConst then "CONST_" ++ t.base.name else t.base.name

/-- Each base type in both grades, the plain one first. -/
def all : List DataType := BaseType.all.flatMap fun b => [plain b, const b]

def ofName? (s : String) : Option DataType := all.find? fun t => t.name == s

/-- A value of type `t` may stand where `target` is expected. NULL fits anywhere, and a constant is
needed where one is expected. -/
def castsTo (t target : DataType) : Bool :=
  t == target || t.isNull || ((t.isConst || !target.isConst) && t.base.widensTo target.base)

/-- The wider of two types that fit into one another; the first one if neither fits. -/
def join (current t : DataType) : DataType :=
  if t.castsTo current then current else if current.castsTo t then t else current

/-- The type that values of all these types are brought to, read from left to right. NULLs do not
count, and only NULLs give NULL. -/
def common (ts : List DataType) : DataType :=
  match (ts.map nonConst).filter fun t => !t.isNull with
  | [] => .plain .null
  | t :: rest => rest.foldl join t

end DataType

/-- What travels with a type: the time zone of a value that carries one. -/
structure TypeParams where
  timezone : Option String
  deriving DecidableEq, Repr

def TypeParams.none : TypeParams := ⟨Option.none⟩

instance : Inhabited TypeParams := ⟨TypeParams.none⟩

end FormulaSql

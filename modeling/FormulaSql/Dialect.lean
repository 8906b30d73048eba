import FormulaSql.Text.Blank

/-!
# SQL dialects

The dialects a formula can be written for, and sets of them. A dialect is named on its own, by the
group it belongs to, or in a list of names separated by bars.
-/

namespace FormulaSql

/-- A dialect in one version. `dummy` is the generic baseline, `compeng` the engine that works on
results already fetched. -/
inductive Dialect where
  | dummy
  | compeng
  | sqlite
  | postgresql93
  | postgresql94
  | clickhouse218
  | clickhouse2210
  | mysql56
  | mysql8012
  | mssql
  | oracle
  | trino
  | snowflake
  | ydb
  | bigquery
  deriving DecidableEq, Repr

namespace Dialect

def all : List Dialect :=
  [dummy, compeng, sqlite, postgresql93, postgresql94, clickhouse218, clickhouse2210, mysql56,
   mysql8012, mssql, oracle, trino, snowflake, ydb, bigquery]

def name : Dialect → String
  | dummy => "DUMMY"
  | compeng => "COMPENG"
  | sqlite => "SQLITE"
  | postgresql93 => "POSTGRESQL_9_3"
  | postgresql94 => "POSTGRESQL_9_4"
  | clickhouse218 => "CLICKHOUSE_21_8"
  | clickhouse2210 => "CLICKHOUSE_22_10"
  | mysql56 => "MYSQL_5_6"
  | mysql8012 => "MYSQL_8_0_12"
  | mssql => "MSSQL"
  | oracle => "ORACLE"
  | trino => "TRINO"
  | snowflake => "SNOWFLAKE"
  | ydb => "YDB"
  | bigquery => "BIGQUERY"

def index (d : Dialect) : Nat := d.ctorIdx

end Dialect

/-- A set of dialects, one bit for each. -/
structure Dialects where
  mask : BitVec 15
  deriving DecidableEq, Repr

namespace Dialects

def empty : Dialects := ⟨0⟩

/-- Every dialect. -/
def any : Dialects := ⟨BitVec.allOnes 15⟩

def single (d : Dialect) : Dialects := ⟨1 <<< d.index⟩

instance : Coe Dialect Dialects := ⟨single⟩

def union (a b : Dialects) : Dialects := ⟨a.mask ||| b.mask⟩

def inter (a b : Dialects) : Dialects := ⟨a.mask &&& b.mask⟩

instance : OrOp Dialects := ⟨union⟩

instance : AndOp Dialects := ⟨inter⟩

def dummy : Dialects := single .dummy
def sqlite : Dialects := single .sqlite
def mssql : Dialects := single .mssql
def postgresql : Dialects := single .postgresql93 ||| single .postgresql94
def clickhouse : Dialects := single .clickhouse218 ||| single .clickhouse2210
def mysql : Dialects := single .mysql56 ||| single .mysql8012

def isEmpty (a : Dialects) : Bool := a == empty

/-- Every dialect of `b` is in `a`. -/
def contains (a b : Dialects) : Bool := a.inter b == b

/-- The dialects of a set, in their fixed order. -/
def toList (a : Dialects) : List Dialect := Dialect.all.filter fun d => a.contains (single d)

def size (a : Dialects) : Nat := a.toList.length

/-- What is made for the dialects `a` serves `d`: the full set serves everything, any other set the
dialects it contains. -/
def serves (a d : Dialects) : Bool := a == any || a.contains d

/-- Names of several dialects at once. -/
def groups : List (String × Dialects) :=
  [("ANY", any), ("EMPTY", empty), ("POSTGRESQL", postgresql), ("CLICKHOUSE", clickhouse),
   ("MYSQL", mysql)]

/-- All names that are understood: single dialects, then groups. -/
def names : List (String × Dialects) :=
  Dialect.all.map (fun d => (d.name, single d)) ++ groups

/-- The name of the group with exactly these dialects, or else their names separated by bars. -/
def text (a : Dialects) : String :=
  match groups.find? fun g => g.2 == a with
  | some g => g.1
  | none => "|".intercalate (a.toList.map Dialect.name)

/-- The set with this name. -/
def ofName? (n : String) : Option Dialects := names.lookup n

/-- The union of the named sets, or the first name that is unknown. Blanks around a name and the
case of ASCII letters do not matter. -/
def parse (s : String) : Except String Dialects :=
  ((s.splitOn "|").map fun part => (Text.trimmed part).toUpper).foldlM
    (fun acc part =>
      match ofName? part with
      | some d => .ok (acc ||| d)
      | none => .error part)
    empty

end Dialects

end FormulaSql

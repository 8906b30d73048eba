import FormulaSql.Formula.Json
import FormulaSql.Sql.Basic

/-!
# SQL expressions in JSON form

Each form is written with its name as a tag around its parts.
-/

namespace FormulaSql

def FrameBound.toJson : FrameBound → Json
  | unboundedPreceding => .str "UnboundedPreceding"
  | preceding n => Json.tag "Preceding" (.int n)
  | currentRow => .str "CurrentRow"
  | following n => Json.tag "Following" (.int n)
  | unboundedFollowing => .str "UnboundedFollowing"

def Frame.toJson (f : Frame) : Json := .obj [("start", f.start.toJson), ("end", f.stop.toJson)]

namespace Sql

/-- A missing value is NULL. -/
def orNull (j : Option Json) : Json := j.getD .null

mutual

def toJson : Sql → Json
  | column table name =>
    Json.tag "Column" (.obj [("table", orNull (table.map .str)), ("name", .str name)])
  | literal v => Json.tag "Literal" v.toJson
  | func name args =>
    Json.tag "Func" (.obj [("name", .str name), ("args", .arr (toJsons args))])
  | distinctFunc name args =>
    Json.tag "DistinctFunc" (.obj [("name", .str name), ("args", .arr (toJsons args))])
  | binary op l r =>
    Json.tag "Binary" (.obj [("op", .str op), ("left", toJson l), ("right", toJson r)])
  | prefixOp op e => Json.tag "Prefix" (.obj [("op", .str op), ("expr", toJson e)])
  | postfixOp op e => Json.tag "Postfix" (.obj [("op", .str op), ("expr", toJson e)])
  | between e low high negated =>
    Json.tag "Between" (.obj [("expr", toJson e), ("low", toJson low), ("high", toJson high),
      ("negated", .bool negated)])
  | inList e items negated =>
    Json.tag "InList" (.obj [("expr", toJson e), ("list", .arr (toJsons items)),
      ("negated", .bool negated)])
  | caseOf operand whens otherwise =>
    Json.tag "Case" (.obj [("operand", optionJson operand), ("whens", .arr (whenJsons whens)),
      ("else_expr", optionJson otherwise)])
  | cast e type => Json.tag "Cast" (.obj [("expr", toJson e), ("type_name", .str type)])
  | array items => Json.tag "Array" (.arr (toJsons items))
  | ordered e descending =>
    Json.tag "Ordered" (.obj [("expr", toJson e), ("desc", .bool descending)])
  | windowed f partition order frame =>
    Json.tag "Over" (.obj [("func", toJson f), ("partition_by", .arr (toJsons partition)),
      ("order_by", .arr (toJsons order)), ("frame", orNull (frame.map Frame.toJson))])
  | grouped e => Json.tag "Grouped" (toJson e)
  | raw s => Json.tag "Raw" (.str s)

def toJsons : List Sql → List Json
  | [] => []
  | e :: es => toJson e :: toJsons es

def optionJson : Option Sql → Json
  | none => .null
  | some e => toJson e

def whenJsons : List (Sql × Sql) → List Json
  | [] => []
  | w :: ws => whenJson w :: whenJsons ws

def whenJson : Sql × Sql → Json
  | (test, value) => .arr [toJson test, toJson value]

end

end Sql

end FormulaSql

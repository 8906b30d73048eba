import FormulaSql.Formula.Recursion
import FormulaSql.Json.Names

/-!
# Formulas in JSON form

A node is written with its kind as a tag around its parts, and its notes only where it has some.
The parts of a node are written and read with its children as a parameter, so that one level of a
tree can be looked at alone. Dimensions may be given before the word that says what they are for;
their nodes are then read in another manner than the node that holds them.
-/

namespace FormulaSql

open Json (Manner members? taggedMembers?)

variable {α : Type}

/-! ## Literals -/

namespace Literal

/-- A literal with its type beside it. -/
def typed (type : String) (value : Json) : Json := .obj [("type", .str type), ("value", value)]

def integerJson (n : Int64) : Json := .int n.toInt

def toJson : Literal → Json
  | null => .obj [("type", .str "null")]
  | integer n => typed "integer" (integerJson n)
  | float x => typed "float" (.real x)
  | boolean b => typed "boolean" (.bool b)
  | string s => typed "string" (.str s)
  | date d => typed "date" (.str d.text)
  | datetime dt => typed "datetime" (.str (dt.text 'T'))
  | datetimeTz dt zone =>
    typed "datetime_tz" (.obj [("value", .str (dt.text 'T')), ("timezone", .str zone)])
  | genericDatetime dt => typed "generic_datetime" (.str (dt.text 'T'))
  | geopoint s => typed "geopoint" (.str s)
  | geopolygon s => typed "geopolygon" (.str s)
  | uuid s => typed "uuid" (.str s)
  | arrayInt xs => typed "array_int" (.arr (xs.map integerJson))
  | arrayFloat xs => typed "array_float" (.arr (xs.map .real))
  | arrayStr xs => typed "array_str" (Json.strings xs)
  | treeStr xs => typed "tree_str" (Json.strings xs)

def dateTime? (j : Json) : Option DateTime := do DateTime.read? (← j.string?)

/-- Reads the value of a literal that has one. -/
def ofTyped? (type : String) (j : Json) : Option Literal :=
  match type with
  | "integer" => j.int64?.map integer
  | "float" => j.double?.map float
  | "boolean" => j.bool?.map boolean
  | "string" => j.string?.map string
  | "date" => do return date (← Date.read? (← j.string?))
  | "datetime" => (dateTime? j).map datetime
  | "datetime_tz" => do
    let ms ← j.namedMembers? ["value", "timezone"]
    return datetimeTz (← ms.required "value" dateTime?) (← ms.required "timezone" Json.string?)
  | "generic_datetime" => (dateTime? j).map genericDatetime
  | "geopoint" => j.string?.map geopoint
  | "geopolygon" => j.string?.map geopolygon
  | "uuid" => j.string?.map uuid
  | "array_int" => (j.list? Json.int64?).map arrayInt
  | "array_float" => (j.list? Json.double?).map arrayFloat
  | "array_str" => (j.list? Json.string?).map arrayStr
  | "tree_str" => (j.list? Json.string?).map treeStr
  | _ => none

def ofJson? (m : Manner) (j : Json) : Option Literal := do
  let c ← j.choice? m "value"
  match c.tag, c.value with
  | "null", v => (Json.noContent? v).map fun _ => null
  | type, some v => ofTyped? type v
  | _, none => none

end Literal

/-! ## Parts of nodes -/

/-- A choice with a list of dimensions beside its name. -/
def dimsJson (type : String) (dims : List Json) : Json :=
  .obj [("type", .str type), ("dims", .arr dims)]

namespace Lod

def toJson : Lod Json → Json
  | inherited => .obj [("type", .str "inherited")]
  | defaultAggregation => .obj [("type", .str "default_aggregation")]
  | fixed ds => dimsJson "fixed" ds
  | including ds => dimsJson "include" ds
  | excluding ds => dimsJson "exclude" ds

def ofJson? (child : Manner → Json → Option α) (m : Manner) (j : Json) : Option (Lod α) := do
  let c ← j.choice? m "dims"
  match c.tag, c.value with
  | "inherited", v => (Json.noContent? v).map fun _ => inherited
  | "default_aggregation", v => (Json.noContent? v).map fun _ => defaultAggregation
  | "fixed", some v => (v.list? (child c.manner)).map fixed
  | "include", some v => (v.list? (child c.manner)).map including
  | "exclude", some v => (v.list? (child c.manner)).map excluding
  | _, _ => none

end Lod

namespace Grouping

def toJson : Grouping Json → Json
  | total => .obj [("type", .str "total")]
  | within ds => dimsJson "within" ds
  | among ds => dimsJson "among" ds

def ofJson? (child : Manner → Json → Option α) (m : Manner) (j : Json) : Option (Grouping α) := do
  let c ← j.choice? m "dims"
  match c.tag, c.value with
  | "total", v => (Json.noContent? v).map fun _ => total
  | "within", some v => (v.list? (child c.manner)).map within
  | "among", some v => (v.list? (child c.manner)).map among
  | _, _ => none

end Grouping

namespace Branch

/-- A branch, with the name its test has in this kind of block. -/
def toJson (testName : String) (b : Branch Json) : Json :=
  .obj [(testName, b.test), ("then", b.value)]

def ofJson? (testName : String) (child : Json → Option α) (j : Json) : Option (Branch α) := do
  let ms ← members? [testName, "then"] j
  return ⟨← ms.required testName child, ← ms.required "then" child⟩

end Branch

namespace Direction

def name : Direction → String
  | asc => "asc"
  | desc => "desc"

def toJson (d : Direction) : Json := .str d.name

def ofJson? (m : Manner) (j : Json) : Option Direction := do
  match ← j.bareTag? m with
  | "asc" => some asc
  | "desc" => some desc
  | _ => none

end Direction

namespace JoinType

def name : JoinType → String
  | left => "left"
  | inner => "inner"

def toJson (t : JoinType) : Json := .str t.name

def ofJson? (m : Manner) (j : Json) : Option JoinType := do
  match ← j.bareTag? m with
  | "left" => some left
  | "inner" => some inner
  | _ => none

end JoinType

namespace JoinCondition

def toJson : JoinCondition Json → Json
  | same e => Json.tag "self_equality" (.obj [("expr", e)])
  | pair e e' => Json.tag "binary" (.obj [("expr", e), ("fork_expr", e')])

def ofJson? (child : Json → Option α) (m : Manner) (j : Json) : Option (JoinCondition α) := do
  match ← j.tagged? with
  | ("self_equality", v) => do
    let ms ← taggedMembers? m ["expr"] v
    return same (← ms.required "expr" child)
  | ("binary", v) => do
    let ms ← taggedMembers? m ["expr", "fork_expr"] v
    return pair (← ms.required "expr" child) (← ms.required "fork_expr" child)
  | _ => none

end JoinCondition

namespace FilterShift

def toJson (s : FilterShift Json) : Json :=
  .obj [("original", s.source), ("replacement", s.target)]

def ofJson? (child : Json → Option α) (j : Json) : Option (FilterShift α) := do
  let ms ← members? ["original", "replacement"] j
  return ⟨← ms.required "original" child, ← ms.required "replacement" child⟩

end FilterShift

namespace Call

def toJson (c : Call Json) : Json :=
  .obj [("name", .str c.name), ("args", .arr c.args), ("lod", c.lod.toJson),
    ("ignore_dimensions", .arr c.ignored), ("before_filter_by", c.beforeFilterBy.toJson)]

def ofJson? (child : Manner → Json → Option α) (m : Manner) (j : Json) : Option (Call α) := do
  let ms ← members? ["name", "args", "lod", "ignore_dimensions", "before_filter_by"] j
  return ⟨← ms.required "name" Json.string?,
    ← ms.optional "args" [] (Json.list? (child m)),
    ← ms.optional "lod" .inherited (Lod.ofJson? child m),
    ← ms.optional "ignore_dimensions" [] (Json.list? (child m)),
    ← ms.optional "before_filter_by" NameSet.empty NameSet.ofJson?⟩

end Call

namespace WindowCall

def toJson (w : WindowCall Json) : Json :=
  .obj [("name", .str w.name), ("args", .arr w.args), ("grouping", w.grouping.toJson),
    ("ordering", .arr w.ordering), ("before_filter_by", w.beforeFilterBy.toJson)]

def ofJson? (child : Manner → Json → Option α) (m : Manner) (j : Json) :
    Option (WindowCall α) := do
  let ms ← members? ["name", "args", "grouping", "ordering", "before_filter_by"] j
  return ⟨← ms.required "name" Json.string?,
    ← ms.optional "args" [] (Json.list? (child m)),
    ← ms.optional "grouping" .total (Grouping.ofJson? child m),
    ← ms.optional "ordering" [] (Json.list? (child m)),
    ← ms.optional "before_filter_by" NameSet.empty NameSet.ofJson?⟩

end WindowCall

namespace Fork

def toJson (q : Fork Json) : Json :=
  .obj [("join_type", q.joinType.toJson), ("result_expr", q.result),
    ("joining", .arr (q.joining.map JoinCondition.toJson)), ("lod", q.lod.toJson),
    ("before_filter_by", q.beforeFilterBy.toJson),
    ("bfb_filter_mutations", .arr (q.shifts.map FilterShift.toJson))]

def ofJson? (child : Manner → Json → Option α) (m : Manner) (j : Json) : Option (Fork α) := do
  let ms ← members?
    ["join_type", "result_expr", "joining", "lod", "before_filter_by", "bfb_filter_mutations"] j
  return ⟨← ms.required "join_type" (JoinType.ofJson? m),
    ← ms.required "result_expr" (child m),
    ← ms.optional "joining" [] (Json.list? (JoinCondition.ofJson? (child m) m)),
    ← ms.optional "lod" .inherited (Lod.ofJson? child m),
    ← ms.optional "before_filter_by" NameSet.empty NameSet.ofJson?,
    ← ms.optional "bfb_filter_mutations" [] (Json.list? (FilterShift.ofJson? (child m)))⟩

end Fork

/-! ## Nodes -/

namespace Kind

/-- A kind whose children are written already. -/
def toJson : Kind Json → Json
  | field n => Json.tag "field" (.obj [("name", .str n)])
  | literal v => Json.tag "literal" v.toJson
  | paren e => Json.tag "parenthesized" e
  | call c => Json.tag "func_call" c.toJson
  | window w => Json.tag "window_func_call" w.toJson
  | binary op l r => Json.tag "binary" (.obj [("name", .str op), ("left", l), ("right", r)])
  | unary op e => Json.tag "unary" (.obj [("name", .str op), ("expr", e)])
  | ternary op a b c =>
    Json.tag "ternary" (.obj [("name", .str op), ("first", a), ("second", b), ("third", c)])
  | ifBlock bs e =>
    Json.tag "if_block" (.obj [("branches", .arr (bs.map (Branch.toJson "cond"))),
      ("else_expr", e)])
  | caseBlock s bs e =>
    Json.tag "case_block" (.obj [("case_expr", s),
      ("branches", .arr (bs.map (Branch.toJson "when"))), ("else_expr", e)])
  | ordered e d => Json.tag "ordered" (.obj [("expr", e), ("direction", d.toJson)])
  | fork q => Json.tag "query_fork" q.toJson
  | error m c => Json.tag "error" (.obj [("message", .str m), ("code", .str c)])

/-- Reads the parts of a kind with this tag, each child with `child`. -/
def ofTagged? (child : Manner → Json → Option α) (m : Manner) (tag : String) (j : Json) :
    Option (Kind α) :=
  match tag with
  | "field" => do
    let ms ← taggedMembers? m ["name"] j
    return field (← ms.required "name" Json.string?)
  | "literal" => (Literal.ofJson? m j).map literal
  | "parenthesized" => (child m j).map paren
  | "func_call" => (Call.ofJson? child m j).map call
  | "window_func_call" => (WindowCall.ofJson? child m j).map window
  | "binary" => do
    let ms ← taggedMembers? m ["name", "left", "right"] j
    return binary (← ms.required "name" Json.string?) (← ms.required "left" (child m))
      (← ms.required "right" (child m))
  | "unary" => do
    let ms ← taggedMembers? m ["name", "expr"] j
    return unary (← ms.required "name" Json.string?) (← ms.required "expr" (child m))
  | "ternary" => do
    let ms ← taggedMembers? m ["name", "first", "second", "third"] j
    return ternary (← ms.required "name" Json.string?) (← ms.required "first" (child m))
      (← ms.required "second" (child m)) (← ms.required "third" (child m))
  | "if_block" => do
    let ms ← taggedMembers? m ["branches", "else_expr"] j
    return ifBlock (← ms.required "branches" (Json.list? (Branch.ofJson? "cond" (child m))))
      (← ms.required "else_expr" (child m))
  | "case_block" => do
    let ms ← taggedMembers? m ["case_expr", "branches", "else_expr"] j
    return caseBlock (← ms.required "case_expr" (child m))
      (← ms.required "branches" (Json.list? (Branch.ofJson? "when" (child m))))
      (← ms.required "else_expr" (child m))
  | "ordered" => do
    let ms ← taggedMembers? m ["expr", "direction"] j
    return ordered (← ms.required "expr" (child m))
      (← ms.required "direction" (Direction.ofJson? m))
  | "query_fork" => (Fork.ofJson? child m j).map fork
  | "error" => do
    let ms ← taggedMembers? m ["message", "code"] j
    return error (← ms.required "message" Json.string?) (← ms.required "code" Json.string?)
  | _ => none

def ofJson? (child : Manner → Json → Option α) (m : Manner) (j : Json) : Option (Kind α) := do
  let (tag, j) ← j.tagged?
  ofTagged? child m tag j

end Kind

namespace LevelTag

def toJson (t : LevelTag) : Json :=
  .obj [("bfb_names", t.filters.toJson), ("func_nesting", .int t.funcNesting.toInt),
    ("qfork_nesting", .int t.forkNesting.toInt)]

def ofJson? (j : Json) : Option LevelTag := do
  let ms ← members? ["bfb_names", "func_nesting", "qfork_nesting"] j
  return ⟨← ms.required "bfb_names" NameSet.ofJson?, ← ms.required "func_nesting" Json.int32?,
    ← ms.optional "qfork_nesting" 0 Json.int32?⟩

end LevelTag

namespace Span

def toJson (s : Span) : Json := .obj [("start", .int s.start.toNat), ("end", .int s.stop.toNat)]

def ofJson? (j : Json) : Option Span := do
  let ms ← members? ["start", "end"] j
  return ⟨← ms.required "start" Json.uint64?, ← ms.required "end" Json.uint64?⟩

end Span

namespace Notes

/-- The member with the notes of a node, left out when there are none. -/
def members (n : Notes) : List (String × Json) :=
  match Json.present "level_tag" (n.level.map LevelTag.toJson) ++
      Json.present "position" (n.span.map Span.toJson) with
  | [] => []
  | ms => [("meta", .obj ms)]

def ofJson? (j : Json) : Option Notes := do
  let ms ← members? ["level_tag", "position"] j
  return ⟨← ms.maybe "level_tag" LevelTag.ofJson?, ← ms.maybe "position" Span.ofJson?⟩

end Notes

/-! ## Trees -/

namespace Formula

def toJson (f : Formula) : Json :=
  f.recur fun f k => .obj (("kind", k.toJson) :: f.notes.members)

/-- Reads a tree whose nodes nest at most `fuel` deep. -/
def read? : Nat → Manner → Json → Option Formula
  | 0, _, _ => none
  | fuel + 1, m, j => do
    let ms ← members? ["kind", "meta"] j
    return .mk (← ms.required "kind" (Kind.ofJson? (read? fuel) m))
      (← ms.optional "meta" Notes.none Notes.ofJson?)

/-- Reads a tree. Nodes nest no deeper than the values that hold them. -/
def ofJson? (m : Manner) (j : Json) : Option Formula := read? (j.depth + 1) m j

end Formula

end FormulaSql

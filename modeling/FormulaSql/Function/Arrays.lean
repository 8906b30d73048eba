import FormulaSql.Function.Arguments

/-!
# Functions on arrays

Some of the names are shared with functions on texts; the types of the arguments decide.
-/

namespace FormulaSql.Function

open TypeFamily Emit

/-! ## Making arrays -/

/-- The literals of all arguments, each read by `item`. -/
def literalItems {α : Type} (item : Literal → Option α) (args : List TypedSql) : Option (List α) :=
  args.mapM fun a => a.sql.literal?.bind item

/-- One array literal, or an array expression if an argument is something else. -/
def constArray {α : Type} (item : Literal → Option α) (make : List α → Literal) : Writer :=
  fun args =>
    match literalItems item args with
    | some items => .ok (.literal (make items))
    | none => .ok (.array (exprs args))

def intItem : Literal → Option Int64
  | .integer n => some n
  | _ => none

def floatItem : Literal → Option Double
  | .integer n => some (Double.ofInt n.toInt)
  | .float x => some x
  | _ => none

def strItem : Literal → Option String
  | .string s => some s
  | _ => none

/-- An overload of `ARRAY`. Some item has to show the type. -/
def makeArray (priority : Nat) (allowed required : List DataType) (returns : DataType)
    (variants : List Variant) : Definition :=
  { name := "array", argNames := ["value_1", "value_2", "value_3"], arity := .atLeast 1
    category := .array
    argTypes := [.forAllRequiring allowed required]
    returns := .fixed returns
    variants, priority }

def makeConstArray (item array : BaseType) (emit : Writer) : Definition :=
  makeArray 0 [.const item, .plain .null] [.const item] (.const array) [.baseline emit]

def makePlainArray (item array : BaseType) : Definition :=
  makeArray 1 [.plain item] [.plain item, .const item] (.plain array)
    [⟨.dummy ||| .postgresql, fun args => .ok (.array (exprs args))⟩, .forClickhouse (call "array")]

/-! ## Using arrays -/

/-- The type of the items of an array. -/
def itemType (types : List DataType) : DataType :=
  match types.head?.map DataType.base with
  | some .arrayInt => .plain .integer
  | some .arrayFloat => .plain .float
  | some .arrayStr => .plain .string
  | _ => .plain .null

def hasItem : Writer := fun args => do
  return .binary "=" (← arg args 1) (.func "ANY" [← arg args 0])

def hasNoItemClickhouse : Writer := fun args => do
  return .prefixOp "NOT" (← call "has" args)

def subscript : Writer := fun args => do
  return .raw ("(" ++ (← arg args 0).text ++ ")[" ++ (← arg args 1).text ++ "]")

/-- What stands between the items of an array in a text. -/
def delimiter (args : List TypedSql) : Sql :=
  match args[1]? with
  | some a => a.sql
  | none => .str ","

def joinItems : Writer := fun args => do
  return .func "ARRAY_TO_STRING" [← arg args 0, delimiter args]

def joinItemsClickhouse : Writer := fun args => do
  return .func "arrayStringConcat"
    [.func "arrayMap" [.raw "x -> toString(x)", ← arg args 0], delimiter args]

/-- A function of an array: one writer for the baseline and PostgreSQL, one for ClickHouse. -/
def arrayFunction (name : String) (argNames : List String) (arity : Arity)
    (argTypes : List ArgTypes) (returns : ReturnType) (general clickhouse : Writer) : Definition :=
  { name, argNames, arity, argTypes, returns, category := .array, priority := 1
    variants := [⟨.dummy ||| .postgresql, general⟩, .forClickhouse clickhouse] }

def arrayAndItem : List ArgTypes :=
  [.sequence [of [.arrayInt], of [.integer]], .sequence [of [.arrayFloat], of [.float]],
   .sequence [of [.arrayStr], of [.string]]]

def arrayPairs : List ArgTypes :=
  [.sequence [of [.arrayInt], of [.arrayInt]], .sequence [of [.arrayFloat], of [.arrayFloat]],
   .sequence [of [.arrayStr], of [.arrayStr]]]

def arrays : List Definition :=
  [makeConstArray .integer .arrayInt (constArray intItem .arrayInt),
   makeConstArray .float .arrayFloat (constArray floatItem .arrayFloat),
   makeConstArray .string .arrayStr (constArray strItem .arrayStr),
   makePlainArray .integer .arrayInt,
   makePlainArray .float .arrayFloat,
   makePlainArray .string .arrayStr,
   arrayFunction "contains" ["array", "value"] (.exact 2) arrayAndItem (.fixed (.plain .boolean))
     hasItem (call "has"),
   arrayFunction "notcontains" ["array", "value"] (.exact 2) arrayAndItem
     (.fixed (.plain .boolean)) (notGrouped hasItem) hasNoItemClickhouse,
   arrayFunction "contains_all" ["array_1", "array_2"] (.exact 2) arrayPairs
     (.fixed (.plain .boolean)) (infixOp "@>") (call "hasAll"),
   arrayFunction "contains_any" ["array_1", "array_2"] (.exact 2) arrayPairs
     (.fixed (.plain .boolean)) (infixOp "&&") (call "hasAny"),
   arrayFunction "len" ["array"] (.exact 1) [.forAll TypeFamily.arrays] (.fixed (.plain .integer))
     (call "CARDINALITY") (call "length"),
   arrayFunction "get_item" ["array", "index"] (.exact 2) [.sequence [TypeFamily.arrays, integers]]
     (.derived itemType) subscript (call "arrayElement"),
   arrayFunction "arr_str" ["array", "delimiter"] (.range 1 2)
     [.sequence [TypeFamily.arrays], .sequence [TypeFamily.arrays, constStrings]]
     (.fixed (.plain .string))
     joinItems joinItemsClickhouse]

end FormulaSql.Function

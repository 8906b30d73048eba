import FormulaSql.Error
import FormulaSql.Sql.Basic

/-!
# Definitions of functions

A function is described by data: how many arguments it takes and of which types, what it returns,
and how its calls are written in SQL. One name may have several definitions, which are told apart
by the number and the types of the arguments.
-/

namespace FormulaSql

/-- An SQL expression with its type. -/
structure TypedSql where
  sql : Sql
  type : DataType
  params : TypeParams

/-! ## Scopes -/

/-- Where a definition may be used, one bit for each purpose. -/
structure Scopes where
  bits : UInt32
  deriving DecidableEq, Repr

namespace Scopes

def stable : Scopes := ⟨1⟩
def explicitUsage : Scopes := ⟨2⟩
def suggested : Scopes := ⟨4⟩
def documented : Scopes := ⟨8⟩
def deprecated : Scopes := ⟨16⟩
def window : Scopes := ⟨32⟩

def union (a b : Scopes) : Scopes := ⟨a.bits ||| b.bits⟩

instance : OrOp Scopes := ⟨union⟩

/-- What most definitions are for. -/
def usual : Scopes := stable ||| explicitUsage ||| suggested ||| documented

/-- Helpers that formulas may use but nobody is told of. -/
def hidden : Scopes := stable ||| explicitUsage

/-- All purposes of `b` are among those of `a`. -/
def contains (a b : Scopes) : Bool := a.bits &&& b.bits == b.bits

def names : List (String × Scopes) :=
  [("STABLE", stable), ("EXPLICIT_USAGE", explicitUsage), ("SUGGESTED", suggested),
   ("DOCUMENTED", documented), ("DEPRECATED", deprecated), ("WINDOW", window)]

/-- The names of the purposes, separated by bars. -/
def text (a : Scopes) : String :=
  " | ".intercalate ((names.filter fun n => a.bits &&& n.2.bits != 0).map (·.1))

end Scopes

/-! ## Arguments -/

inductive Category where
  | operator
  | logical
  | aggregation
  | window
  | mathematical
  | string
  | datetime
  | array
  | lookup
  | type
  deriving DecidableEq, Repr

namespace Category

def name : Category → String
  | operator => "operator"
  | logical => "logical"
  | aggregation => "aggregation"
  | window => "window"
  | mathematical => "mathematical"
  | string => "string"
  | datetime => "datetime"
  | array => "array"
  | lookup => "lookup"
  | type => "type"

end Category

/-- How many arguments a function takes. -/
inductive Arity where
  | exact (n : Nat)
  | range (least most : Nat)
  | atLeast (least : Nat)
  deriving DecidableEq, Repr

namespace Arity

def accepts : Arity → Nat → Bool
  | exact n, count => count == n
  | range least most, count => least ≤ count && count ≤ most
  | atLeast least, count => least ≤ count

end Arity

/-- Some type of the list takes a value of type `t`. -/
def DataType.castsToAny (t : DataType) (allowed : List DataType) : Bool :=
  allowed.any fun a => t.castsTo a

/-- One alternative for the types of the arguments. -/
inductive ArgTypes where
  /-- A list of accepted types for each position. -/
  | sequence (positions : List (List DataType))
  /-- The same accepted types for every argument. -/
  | forAll (allowed : List DataType)
  /-- The same for every argument, and one of them has exactly one of the required types. -/
  | forAllRequiring (allowed required : List DataType)
  | any
  deriving DecidableEq, Repr

namespace ArgTypes

/-- Every type fits the position it stands at, and all positions are taken. -/
def fitPositions : List DataType → List (List DataType) → Bool
  | [], [] => true
  | t :: ts, p :: ps => t.castsToAny p && fitPositions ts ps
  | _, _ => false

def accepts : ArgTypes → List DataType → Bool
  | sequence positions, ts => fitPositions ts positions
  | forAll allowed, ts => ts.all (·.castsToAny allowed)
  | forAllRequiring allowed required, ts =>
    ts.all (·.castsToAny allowed) && ts.any required.contains
  | any, _ => true

end ArgTypes

/-! ## Results -/

/-- How the type of a result follows from the types of the arguments. -/
inductive ReturnType where
  | fixed (t : DataType)
  /-- The type of the argument at a position. -/
  | ofArg (i : Nat)
  /-- The type of the argument at a position, time zone included. -/
  | ofArgWithParams (i : Nat)
  | derived (f : List DataType → DataType)

namespace ReturnType

/-- The position of the argument whose type parameters the result takes over. -/
def paramsSource : ReturnType → Option Nat
  | ofArgWithParams i => some i
  | _ => none

/-- The type that the arguments give, before it is known whether the result is constant. -/
def base (types : List DataType) : ReturnType → DataType
  | fixed t => t
  | ofArg i => ((types[i]?).getD (.plain .null)).nonConst
  | ofArgWithParams i => ((types[i]?).getD (.plain .null)).nonConst
  | derived f => (f types).nonConst

end ReturnType

/-- How a call is written in some dialects. -/
structure Variant where
  dialects : Dialects
  emit : List TypedSql → Except FormulaError Sql

/-! ## Definitions -/

/-- A definition of a function. Names are in lower case. -/
structure Definition where
  name : String
  argNames : List String := []
  arity : Arity := .atLeast 0
  category : Category := .mathematical
  /-- The definition is for calls of window functions only. -/
  isWindow : Bool := false
  scopes : Scopes := .usual
  /-- The alternatives, one of which must take the arguments. -/
  argTypes : List ArgTypes := [.any]
  returns : ReturnType := .fixed (.plain .null)
  variants : List Variant := []
  /-- Calls without an ordering of their own get that of the query. -/
  usesDefaultOrdering : Bool := false
  /-- Definitions with a lower number are tried first. -/
  priority : Nat := 0

namespace Definition

def isAggregate (d : Definition) : Bool := d.category == .aggregation && !d.isWindow

def isLookup (d : Definition) : Bool := d.category == .lookup

/-- The declared scopes, and `window` for a window function. -/
def allScopes (d : Definition) : Scopes :=
  if d.isWindow then d.scopes ||| .window else d.scopes

def accepts (d : Definition) (types : List DataType) : Bool := d.argTypes.any (·.accepts types)

/-- All dialects some variant is made for. -/
def dialects (d : Definition) : Dialects :=
  d.variants.foldl (fun acc v => acc ||| v.dialects) .empty

/-- A result is constant when all arguments are, except for aggregations and window functions. -/
def isConstFor (d : Definition) (types : List DataType) : Bool :=
  !d.isWindow && d.category != .aggregation && !types.isEmpty && types.all (·.isConst)

/-- The type of the result for arguments of these types. -/
def returnTypeFor (d : Definition) (types : List DataType) : DataType :=
  let base := d.returns.base types
  if d.isConstFor types then base.constVersion else base

/-- The first variant of those with the fewest dialects. -/
def narrowest : List Variant → Option Variant
  | [] => none
  | v :: vs =>
    match narrowest vs with
    | some w => if w.dialects.size < v.dialects.size then some w else some v
    | none => some v

/-- The variant for a dialect: the narrowest one that names it, or else the first that covers the
generic baseline. -/
def variantFor? (d : Definition) (dialect : Dialects) : Option Variant :=
  let named := d.variants.filter fun v =>
    !v.dialects.contains .dummy && v.dialects.serves dialect
  (narrowest named).or (d.variants.find? fun v => v.dialects.contains .dummy)

end Definition

end FormulaSql

import FormulaSql.Function.Arguments

/-!
# Operators

Comparisons, arithmetic, and the operators of logic and membership.
-/

namespace FormulaSql.Function

open TypeFamily Emit

/-! ## Comparisons -/

/-- Pairs of types that can be compared for equality. -/
def comparable : List ArgTypes :=
  [.sequence [booleans, booleans], .sequence [numbers, numbers], .sequence [strings, strings],
   .sequence [dates, dates], .sequence [datetimes, datetimes], .sequence [dates, datetimes],
   .sequence [datetimes, dates], .sequence [of [.geopoint], of [.geopoint]],
   .sequence [of [.geopolygon], of [.geopolygon]], .sequence [of [.uuid], of [.uuid]],
   .sequence [of [.arrayInt], of [.arrayInt]], .sequence [of [.arrayFloat], of [.arrayFloat]],
   .sequence [of [.arrayStr], of [.arrayStr]]]

/-- Pairs that internal comparisons take as well. -/
def comparableHidden : List ArgTypes := comparable ++ [.sequence [of [.markup], of [.markup]]]

/-- Pairs of types that can be compared for order. -/
def orderedPairs : List ArgTypes :=
  [.sequence [numbers, numbers], .sequence [strings, strings], .sequence [booleans, booleans],
   .sequence [dates, dates], .sequence [datetimes, datetimes], .sequence [dates, datetimes],
   .sequence [datetimes, dates], .sequence [of [.uuid], of [.uuid]]]

/-- A comparison; NULL literals have to be tested for in another way. -/
def comparison (op : String) : Writer := fun args =>
  if args.any fun a => a.type.isNull then
    .error (.unsupportedNode "invalid comparison with NULL (use \x60<expr> IS [NOT] NULL\x60)")
  else infixOp op args

/-- Equality that holds between two NULLs. -/
def nullSafeEq : Writer := fun args => do
  let l ← arg args 0
  let r ← arg args 1
  return .grouped (.or (.binary "=" l r) (.and (.isNull l) (.isNull r)))

/-- An operator with two operands. -/
def binaryOperator (name : String) : Definition :=
  { name, argNames := ["left", "right"], arity := .exact 2, category := .operator }

def unaryOperator (name : String) : Definition :=
  { name, argNames := ["value"], arity := .exact 1, category := .operator }

/-- A comparison for which one writer serves all dialects. -/
def comparisonOperator (name : String) (scopes : Scopes) (argTypes : List ArgTypes) (op : String) :
    Definition :=
  { binaryOperator name with
    scopes, argTypes
    returns := .fixed (.plain .boolean)
    variants := [.forAny (comparison op)] }

def comparisons : List Definition :=
  [comparisonOperator "==" .usual comparable "=",
   comparisonOperator "_==" .hidden comparableHidden "=",
   comparisonOperator "!=" .usual comparable "<>",
   comparisonOperator "_!=" .hidden comparableHidden "<>",
   { binaryOperator "_dneq" with
     scopes := .hidden
     argTypes := comparableHidden
     returns := .fixed (.plain .boolean)
     variants :=
       [⟨.dummy ||| .sqlite, nullSafeEq⟩, .forClickhouse (call "isNotDistinctFrom"),
        ⟨.postgresql, infixOp "IS NOT DISTINCT FROM"⟩] },
   comparisonOperator "<" .usual orderedPairs "<",
   comparisonOperator "<=" .usual orderedPairs "<=",
   comparisonOperator ">" .usual orderedPairs ">",
   comparisonOperator ">=" .usual orderedPairs ">="]

/-! ## Arithmetic -/

/-- A date moved by a number of days. -/
def shiftDays (op : String) : Writer := fun args => do
  let days ← arg args 1
  return .binary op (← arg args 0) (.binary "*" days (.raw "INTERVAL '1 day'"))

/-- The number of days between two dates. -/
def daysBetween : Writer := fun args => do
  return .func "dateDiff" [.str "day", ← arg args 1, ← arg args 0]

/-- Division whose result is a float for integers, too. -/
def floatDivision : Writer := fun args => do
  return .binary "/" (.cast (← arg args 0) "FLOAT") (← arg args 1)

/-- An overload of an arithmetic operator. -/
def arithmetic (name : String) (priority : Nat) (argTypes : List ArgTypes) (returns : ReturnType)
    (variants : List Variant) : Definition :=
  { binaryOperator name with priority, argTypes, returns, variants }

def arithmetics : List Definition :=
  [arithmetic "+" 0 [.sequence [integers, integers]] (.fixed (.plain .integer))
     [.forAny (infixOp "+")],
   arithmetic "+" 1 [.sequence [numbers, numbers]] (.fixed (.plain .float))
     [.forAny (infixOp "+")],
   arithmetic "+" 2 [.sequence [strings, strings]] (.fixed (.plain .string))
     [⟨.dummy ||| .sqlite ||| .postgresql, infixOp "||"⟩,
      ⟨.clickhouse ||| .mysql ||| .mssql, call "CONCAT"⟩],
   arithmetic "+" 3 [.sequence [dates, numbers], .sequence [datetimes, numbers]]
     (.ofArgWithParams 0)
     [.baseline (shiftDays "+"), .forClickhouse (call "addDays")],
   arithmetic "+" 4
     [.sequence [of [.arrayInt], of [.arrayInt]], .sequence [of [.arrayFloat], of [.arrayFloat]],
      .sequence [of [.arrayStr], of [.arrayStr]]]
     (.ofArg 0)
     [⟨.dummy ||| .postgresql, infixOp "||"⟩, .forClickhouse (call "arrayConcat")],
   arithmetic "-" 0 [.sequence [integers, integers]] (.fixed (.plain .integer))
     [.forAny (infixOp "-")],
   arithmetic "-" 1 [.sequence [numbers, numbers]] (.fixed (.plain .float))
     [.forAny (infixOp "-")],
   arithmetic "-" 2 [.sequence [dates, dates]] (.fixed (.plain .integer))
     [⟨.dummy ||| .postgresql, infixOp "-"⟩, .forClickhouse daysBetween],
   arithmetic "-" 3 [.sequence [dates, numbers], .sequence [datetimes, numbers]]
     (.ofArgWithParams 0)
     [.baseline (shiftDays "-"), .forClickhouse (call "subtractDays")],
   arithmetic "*" 0 [.sequence [integers, integers]] (.fixed (.plain .integer))
     [.forAny (infixOp "*")],
   arithmetic "*" 1 [.sequence [numbers, numbers]] (.fixed (.plain .float))
     [.forAny (infixOp "*")],
   arithmetic "*" 2 [.sequence [strings, integers]] (.fixed (.plain .string))
     [⟨.dummy ||| .postgresql, call "REPEAT"⟩, .forClickhouse (call "repeat")],
   arithmetic "/" 0 [.sequence [integers, integers]] (.fixed (.plain .float))
     [.baseline floatDivision, .forClickhouse (infixOp "/")],
   arithmetic "/" 1 [.sequence [numbers, floats], .sequence [floats, numbers]]
     (.fixed (.plain .float)) [.forAny (infixOp "/")],
   arithmetic "%" 0 [.sequence [integers, integers]] (.fixed (.plain .integer))
     [.forAny (infixOp "%")],
   arithmetic "%" 1 [.sequence [numbers, numbers]] (.fixed (.plain .float))
     [.baseline (call "MOD"), .forClickhouse (call "modulo")],
   arithmetic "^" 0 [.sequence [numbers, numbers]] (.fixed (.plain .float))
     [.forAny (call "POWER")]]

/-! ## Logic and membership -/

/-- The items of a constant list. -/
def listItems : Sql → List Sql
  | .literal (.arrayInt xs) => xs.map .int
  | .literal (.arrayFloat xs) => xs.map fun x => .literal (.float x)
  | .literal (.arrayStr xs) => xs.map .str
  | .array items => items
  | e => [e]

/-- Membership in a constant list. Nothing is a member of the empty list. -/
def membership (negated : Bool) : Writer := fun args => do
  let item ← arg args 0
  let items := listItems (← arg args 1)
  if items.isEmpty then return .literal (.boolean negated) else return .inList item items negated

def betweenBounds (negated : Bool) : Writer := fun args => do
  return .between (← arg args 0) (← arg args 1) (← arg args 2) negated

def membershipTypes : List ArgTypes :=
  [.sequence [integers, ofConst [.arrayInt]], .sequence [numbers, ofConst [.arrayFloat]],
   .sequence [strings, ofConst [.arrayStr]]]

def betweenTypes : List ArgTypes :=
  [.sequence [numbers, numbers, numbers], .sequence [strings, strings, strings],
   .sequence [dates, dates, dates], .sequence [datetimes, datetimes, datetimes], .forAll ordered]

/-- An operator with a truth value and one writer for all dialects. -/
def predicateOperator (name : String) (argTypes : List ArgTypes) (emit : Writer) : Definition :=
  { binaryOperator name with
    argTypes
    returns := .fixed (.plain .boolean)
    variants := [.forAny emit] }

def membershipOperator (name : String) (scopes : Scopes) (negated : Bool) : Definition :=
  { predicateOperator name membershipTypes (membership negated) with
    argNames := ["item", "list"], scopes }

def betweenOperator (name : String) (negated : Bool) : Definition :=
  { name, argNames := ["value", "low", "high"], arity := .exact 3, category := .operator
    argTypes := betweenTypes
    returns := .fixed (.plain .boolean)
    variants := [.forAny (betweenBounds negated)] }

def predicates : List Definition :=
  [predicateOperator "and" [.any] (infixOp "AND"),
   predicateOperator "or" [.any] (infixOp "OR"),
   predicateOperator "like" [.sequence [strings, strings]] (infixOp "LIKE"),
   predicateOperator "notlike" [.sequence [strings, strings]] (infixOp "NOT LIKE"),
   membershipOperator "in" .usual false,
   membershipOperator "notin" .hidden true,
   { unaryOperator "not" with
     argTypes := [.any]
     returns := .fixed (.plain .boolean)
     variants := [.forAny (prefixOp "NOT")] },
   { unaryOperator "neg" with
     argTypes := [.forAll numbers]
     returns := .ofArg 0
     variants := [.forAny (prefixOp "-")] },
   betweenOperator "between" false,
   betweenOperator "notbetween" true]

/-- All operators. -/
def operators : List Definition := comparisons ++ arithmetics ++ predicates

end FormulaSql.Function

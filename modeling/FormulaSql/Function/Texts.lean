import FormulaSql.Function.Arguments

/-!
# Functions on texts
-/

namespace FormulaSql.Function

open TypeFamily Emit

/-! ## Patterns

A search for a piece of text is written as a LIKE pattern. In the pattern of a constant, the
characters that mean something in patterns are preceded by a backslash. -/

def escapePatternChar (c : Char) : List Char :=
  if c = '\\' || c = '%' || c = '_' then ['\\', c] else [c]

/-- The pattern that only the text itself matches. -/
def escapePattern (s : String) : String := String.ofList (s.toList.flatMap escapePatternChar)

/-- The mark for any text, where it is wanted. -/
def wildcard (wanted : Bool) : String := if wanted then "%" else ""

/-- The pattern for a piece of text, open at the start or at the end. -/
def likePattern (openStart : Bool) (pattern : Sql) (openEnd : Bool) : Sql :=
  match pattern with
  | .literal (.string s) => .str (wildcard openStart ++ escapePattern s ++ wildcard openEnd)
  | e =>
    let e := if openStart then .binary "||" (.str "%") e else e
    if openEnd then .binary "||" e (.str "%") else e

/-- The first argument matches the pattern for the second one. -/
def matchesPiece (openStart openEnd : Bool) : Writer := fun args => do
  return .binary "LIKE" (← arg args 0) (likePattern openStart (← arg args 1) openEnd)

def positionIsFound : Writer := fun args => do
  return .binary ">" (.func "positionUTF8" [← arg args 0, ← arg args 1]) (.int 0)

/-! ## Other functions -/

/-- The arguments, converted to text where they are something else. -/
def asTexts (args : List TypedSql) : List Sql :=
  args.map fun a => if a.type.base == .string then a.sql else .cast a.sql "TEXT"

/-- A function of one text. -/
def textFunction (name : String) (returns : BaseType) (variants : List Variant) : Definition :=
  { name, argNames := ["string"], arity := .exact 1, category := .string
    argTypes := [.forAll strings]
    returns := .fixed (.plain returns)
    variants }

/-- A test of one text against another. -/
def pieceTest (name : String) (baseline clickhouse : Writer) : Definition :=
  { textFunction name .boolean [.baseline baseline, .forClickhouse clickhouse] with
    argNames := ["string", "substring"], arity := .exact 2
    argTypes := [.sequence [strings, strings]] }

def texts : List Definition :=
  [{ textFunction "concat" .string
       [.baseline (fun args => .ok (.func "CONCAT" (asTexts args))),
        .forClickhouse (fun args =>
          .ok (.func "concat" (args.map fun a => .func "toString" [a.sql])))] with
     argNames := ["string_1", "string_2"], arity := .atLeast 1
     argTypes := [.forAll every] },
   textFunction "upper" .string [.forAny (call "UPPER")],
   textFunction "lower" .string [.forAny (call "LOWER")],
   textFunction "trim" .string [.forAny (call "TRIM")],
   textFunction "len" .integer
     [.baseline (call "CHAR_LENGTH"), .forClickhouse (call "lengthUTF8"), ⟨.mssql, call "LEN"⟩],
   pieceTest "contains" (matchesPiece true true) positionIsFound,
   pieceTest "notcontains" (notGrouped (matchesPiece true true)) (notGrouped positionIsFound),
   pieceTest "startswith" (matchesPiece false true) (call "startsWith"),
   pieceTest "endswith" (matchesPiece true false) (call "endsWith"),
   { textFunction "substr" .string
       [.baseline (call "SUBSTRING"), .forClickhouse (call "substringUTF8")] with
     argNames := ["string", "from_index", "length"], arity := .range 2 3
     argTypes := [.sequence [strings, integers], .sequence [strings, integers, integers]] },
   { textFunction "replace" .string
       [.baseline (call "REPLACE"), .forClickhouse (call "replaceAll")] with
     argNames := ["string", "substring", "replace_with"], arity := .exact 3
     argTypes := [.sequence [strings, strings, strings]] }]

end FormulaSql.Function

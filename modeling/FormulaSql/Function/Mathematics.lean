import FormulaSql.Function.Arguments

/-!
# Mathematical functions and conversions
-/

namespace FormulaSql.Function

open TypeFamily Emit

/-- A function of one number. -/
def mathFunction (name : String) (returns : ReturnType) (variants : List Variant) : Definition :=
  { name, argNames := ["number"], arity := .exact 1, category := .mathematical
    argTypes := [.forAll numbers]
    returns, variants }

/-- A conversion to a type: a cast by default, a function of its own in one dialect. -/
def conversion (name : String) (target : BaseType) (sqlType function : String) : Definition :=
  { name, argNames := ["expression"], arity := .exact 1, category := .type
    argTypes := [.forAll every]
    returns := .fixed (.plain target)
    variants := [.baseline (cast sqlType), .forClickhouse (call function)] }

def mathematics : List Definition :=
  [mathFunction "abs" (.ofArg 0) [.forAny (call "ABS")],
   { mathFunction "round" (.ofArg 0) [.forAny (call "ROUND")] with
     argNames := ["number", "precision"], arity := .range 1 2
     argTypes := [.sequence [numbers], .sequence [numbers, integers]] },
   mathFunction "floor" (.fixed (.plain .integer)) [.forAny (call "FLOOR")],
   mathFunction "ceiling" (.fixed (.plain .integer))
     [.baseline (call "CEILING"), .forClickhouse (call "ceil")],
   { mathFunction "sqrt" (.fixed (.plain .float)) [.forAny (call "SQRT")] with
     argTypes := [.forAll floats] }]

def conversions : List Definition :=
  [conversion "int" .integer "BIGINT" "toInt64",
   conversion "float" .float "FLOAT" "toFloat64",
   conversion "str" .string "TEXT" "toString",
   { conversion "date" .date "DATE" "toDate" with
     argTypes := [.forAll strings, .forAll datelike] }]

end FormulaSql.Function

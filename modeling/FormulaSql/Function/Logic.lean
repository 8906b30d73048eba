import FormulaSql.Function.Arguments

/-!
# Conditional functions

`IF` and `CASE`, as calls and as blocks, and the functions about NULL.
-/

namespace FormulaSql.Function

open TypeFamily Emit

/-- The function that IF blocks are written through. -/
def ifBlockName : String := "_if_block_"

/-- The function that CASE blocks are written through. -/
def caseBlockName : String := "_case_block_"

/-- The positions of `types` that `isValue` selects, and the last one. -/
def valueTypes (isValue : Nat → Bool) (types : List DataType) : List DataType :=
  (types.zipIdx.filter fun (_, i) => isValue i || i + 1 == types.length).map (·.1)

/-- The type of `condition, value, …, otherwise`: the common type of the values. -/
def ifType (types : List DataType) : DataType :=
  DataType.common (valueTypes (fun i => i % 2 == 1) types)

/-- The type of `subject, pattern, value, …, otherwise`: the common type of the values. -/
def caseType (types : List DataType) : DataType :=
  DataType.common (valueTypes (fun i => 2 ≤ i && i % 2 == 0) types)

/-- Neighbours taken two by two. -/
def pairs {α : Type} : List α → List (α × α)
  | a :: b :: rest => (a, b) :: pairs rest
  | _ => []

def conditional : Writer := fun args =>
  if args.length < 3 || args.length % 2 == 0 then
    .error (.validation (.argCount "IF" args.length))
  else
    let es := exprs args
    .ok (.caseOf none (pairs es.dropLast) es.getLast?)

def selection : Writer := fun args =>
  match exprs args with
  | subject :: es =>
    if args.length < 4 || args.length % 2 == 1 then
      .error (.validation (.argCount "CASE" args.length))
    else .ok (.caseOf (some subject) (pairs es.dropLast) es.getLast?)
  | [] => .error (.validation (.argCount "CASE" 0))

/-- A conditional function that takes any types. -/
def logicalFunction (name : String) (argNames : List String) (arity : Arity)
    (returns : ReturnType) (emit : Writer) : Definition :=
  { name, argNames, arity, returns, category := .logical, variants := [.forAny emit] }

def ifFunction (name : String) : Definition :=
  logicalFunction name ["condition_1", "result_1", "default_result"] (.atLeast 3)
    (.derived ifType) conditional

def caseFunction (name : String) : Definition :=
  logicalFunction name ["expression", "pattern_1", "result_1", "default_result"] (.atLeast 4)
    (.derived caseType) selection

def logic : List Definition :=
  [ifFunction "if",
   { ifFunction ifBlockName with scopes := .hidden },
   caseFunction "case",
   { caseFunction caseBlockName with scopes := .hidden },
   logicalFunction "iif" ["condition", "then_result", "else_result"] (.exact 3)
     (.derived ifType) conditional,
   logicalFunction "isnull" ["expression"] (.exact 1) (.fixed (.plain .boolean))
     (fun args => do return .isNull (← arg args 0)),
   logicalFunction "ifnull" ["check_value", "alt_value"] (.exact 2) (.derived DataType.common)
     (call "COALESCE"),
   { logicalFunction "zn" ["expression"] (.exact 1) (.ofArg 0)
       (fun args => do return .func "COALESCE" [← arg args 0, .int 0]) with
     argTypes := [.forAll numbers] }]

end FormulaSql.Function

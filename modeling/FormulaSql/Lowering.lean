import FormulaSql.Formula.Text
import FormulaSql.Function.Dispatch

/-!
# Formulas as SQL expressions

Every call, operator and block is resolved to a definition by the types of its arguments, and the
definition writes it. Forks, lookups and AMONG groupings have no SQL form and must be gone before.
-/

namespace FormulaSql

/-- What a field reads. -/
structure FieldInfo where
  column : Sql
  type : DataType
  params : TypeParams

/-- What a formula is lowered for. -/
structure Scope where
  dialect : Dialects
  /-- Purposes that the definitions must serve. -/
  purposes : Scopes
  fields : List (String × FieldInfo)

namespace Scope

/-- A scope without fields, for formulas that users write. -/
def empty (dialect : Dialects) : Scope := ⟨dialect, .explicitUsage, []⟩

def field? (s : Scope) (name : String) : Option FieldInfo := s.fields.lookup name

/-- Adds a field, in the place of an earlier one of the same name. -/
def withField (s : Scope) (name : String) (info : FieldInfo) : Scope :=
  { s with fields := (name, info) :: s.fields.filter fun f => f.1 != name }

end Scope

namespace Literal

/-- A literal is a constant of its type; one with a time zone passes it on. -/
def lower (v : Literal) : TypedSql :=
  { sql := .literal v
    type := .const v.baseType
    params :=
      match v with
      | datetimeTz _ zone => ⟨some zone⟩
      | _ => .none }

end Literal

namespace Lowering

/-- The result of lowering, or the first error. -/
abbrev Result := Except FormulaError TypedSql

/-- The results of a list of formulas, or the first error. -/
def all (rs : List Result) : Except FormulaError (List TypedSql) := rs.mapM id

/-- A call with arguments that are lowered already. -/
def dispatch (s : Scope) (name : String) (isWindow : Bool) (args : List TypedSql) : Result := do
  let r ← Function.resolve name (args.map TypedSql.type) isWindow s.dialect s.purposes
  let sql ← r.variant.emit args
  let source := r.definition.returns.paramsSource.bind fun i => args[i]?
  return ⟨sql, r.returnType, (source.map TypedSql.params).getD .none⟩

def call (s : Scope) (name : String) (args : List Result) : Result := do
  dispatch s name false (← all args)

/-- The expressions of dimensions or orderings. -/
def exprs (rs : List Result) : Except FormulaError (List Sql) := do
  return (← all rs).map TypedSql.sql

/-- Puts a window around a function, or fills in the one it has. The ordering of the function
itself comes first. -/
def overWindow (partition ordering : List Sql) : Sql → Sql
  | .windowed f _ order frame => .windowed f partition (order ++ ordering) frame
  | e => .windowed e partition ordering none

def window (s : Scope) (f : Formula) (w : WindowCall Result) : Result := do
  let partition ←
    match w.grouping with
    | .total => pure []
    | .within dims => exprs dims
    | .among _ =>
      .error (.unsupportedNode ("AMONG must be converted to WITHIN before translation: " ++ f.text))
  let ordering ← exprs w.ordering
  let r ← dispatch s w.name true (← all w.args)
  return { r with sql := overWindow partition ordering r.sql }

/-- One node, given the results of its children. -/
def step (s : Scope) (f : Formula) : Kind Result → Result
  | .field name =>
    match s.field? name with
    | some info => .ok ⟨info.column, info.type, info.params⟩
    | none => .error (.unknownField name)
  | .literal v => .ok v.lower
  | .paren e => do
    let r ← e
    return { r with sql := .grouped r.sql }
  | .ordered e d => do
    let r ← e
    return { r with sql := .ordered r.sql (d == .desc) }
  | .binary op l r => call s op [l, r]
  | .unary op e => call s op [e]
  | .ternary op a b c => call s op [a, b, c]
  | .call c => call s c.name c.args
  | .window w => window s f w
  | .ifBlock bs e => call s Function.ifBlockName (bs.flatMap Branch.parts ++ [e])
  | .caseBlock x bs e => call s Function.caseBlockName (x :: bs.flatMap Branch.parts ++ [e])
  | .fork _ =>
    .error (.unsupportedNode
      ("query fork must be split into a sub-query before translation: " ++ f.text))
  | .error message code => .error (.ofNode code message)

end Lowering

/-- The SQL of a formula with its type. -/
def Formula.lower (f : Formula) (s : Scope) : Except FormulaError TypedSql :=
  f.recur (Lowering.step s)

end FormulaSql

import FormulaSql.Function.Catalogue

/-!
# Choosing a definition

A call is resolved in steps: by its name, by the scopes it asks for, by the number of its
arguments, and by their types. The first definition left is taken, then its variant for the
dialect.
-/

namespace FormulaSql

namespace Function

/-- The definitions of a name among `defs`, those with lower priority numbers first. The case of
ASCII letters in the name does not matter. -/
def definitionsIn (defs : List Definition) (name : String) (isWindow : Bool) : List Definition :=
  let key := name.toLower
  (defs.filter fun d => d.name == key && d.isWindow == isWindow).mergeSort
    fun a b => a.priority ≤ b.priority

/-- The definitions of a name in the catalogue. -/
def definitions (name : String) (isWindow : Bool) : List Definition :=
  definitionsIn catalogue name isWindow

/-- The name is that of an aggregation. -/
def isAggregate (name : String) : Bool := (definitions name false).any (·.isAggregate)

/-- The name is that of a lookup. -/
def isLookup (name : String) : Bool := (definitions name false).any (·.isLookup)

/-- Window calls of this name take the ordering of the query. -/
def usesDefaultOrdering (name : String) : Bool :=
  (definitions name true).any (·.usesDefaultOrdering)

/-- The outcome of a choice. -/
structure Resolution where
  definition : Definition
  variant : Variant
  returnType : DataType

/-- Chooses among `defs`. -/
def resolveIn (defs : List Definition) (name : String) (types : List DataType) (isWindow : Bool)
    (dialect : Dialects) (scopes : Scopes) : Except FormulaError Resolution :=
  let inScope := (definitionsIn defs name isWindow).filter fun d => d.allScopes.contains scopes
  let byArity := inScope.filter fun d => d.arity.accepts types.length
  if inScope.isEmpty then .error (.unknownFunction name)
  else if byArity.isEmpty then .error (.validation (.argCount name types.length))
  else
    match byArity.find? (·.accepts types) with
    | none => .error (.noOverload name types)
    | some d =>
      match d.variantFor? dialect with
      | none => .error (.dialectNotSupported name dialect)
      | some v => .ok ⟨d, v, d.returnTypeFor types⟩

/-- Chooses in the catalogue. -/
def resolve (name : String) (types : List DataType) (isWindow : Bool) (dialect : Dialects)
    (scopes : Scopes) : Except FormulaError Resolution :=
  resolveIn catalogue name types isWindow dialect scopes

end Function

end FormulaSql

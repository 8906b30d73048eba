import FormulaSql.DataType
import FormulaSql.Dialect

/-!
# Errors about formulas

Each error is a cause with what is needed to name it. Its message and its stable code are read off
the cause.
-/

namespace FormulaSql

/-- A formula that breaks a rule about its use. -/
inductive ValidationError where
  /-- The formula mixes values per row with values per group. -/
  | inconsistentAggregation (formula : String)
  | doubleAggregation (formula : String)
  | unknownTimeUnit (unit : String)
  | argCount (name : String) (got : Nat)
  deriving DecidableEq

inductive FormulaError where
  | unknownDialect (name : String)
  | unknownFunction (name : String)
  /-- No definition of the function takes these types. -/
  | noOverload (name : String) (argTypes : List DataType)
  | dialectNotSupported (name : String) (dialects : Dialects)
  | validation (cause : ValidationError)
  /-- An aggregation at the top of a formula uses dimensions the query does not group by. -/
  | topLevelDimensions (message : String)
  | incompatibleDimensions (message : String)
  | unknownField (name : String)
  /-- An error recorded inside a formula. -/
  | recorded (code message : String)
  | unsupportedNode (message : String)
  deriving DecidableEq

namespace ErrorCode

def noOverload : String := "FORMULA.TRANSLATION.NOT_FOUND"
def dialectNotSupported : String := "FORMULA.TRANSLATION.DIALECT_NOT_SUPPORTED"
def unknownFunction : String := "FORMULA.TRANSLATION.UNKNOWN_FUNCTION"
def unsupportedNode : String := "FORMULA.TRANSLATION.UNSUPPORTED_NODE"
def unknownField : String := "FORMULA.UNKNOWN_FIELD"
def inconsistentAggregation : String := "FORMULA.VALIDATION.AGG.INCONSISTENT"
def doubleAggregation : String := "FORMULA.VALIDATION.AGG.DOUBLE"
def unknownTimeUnit : String := "FORMULA.VALIDATION.UNKNOWN_TIME_UNIT"
def argCount : String := "FORMULA.VALIDATION.ARG_COUNT"
def topLevelDimensions : String := "FORMULA.VALIDATION.LOD.INVALID_TOPLEVEL"
def incompatibleDimensions : String := "FORMULA.VALIDATION.LOD.INCOMPATIBLE_DIMENSIONS"
def lookupArgNumber : String := "FORMULA.VALIDATION.LOOKUP_FUNC.ARG_NUMBER"
def lookupWithoutAggregation : String := "FORMULA.VALIDATION.LOOKUP_FUNC.WO_AGGREGATION"
def lookupAggregatedDimension : String := "FORMULA.VALIDATION.LOOKUP_FUNC.AGGREGATED_DIMENSION"
def lookupIgnoredDimension : String := "FORMULA.VALIDATION.LOOKUP_FUNC.IGNORED_DIMENSION"
def lookupConstantDimension : String := "FORMULA.VALIDATION.LOOKUP_FUNC.CONSTANT_DIMENSION"
def lookupUnselectedDimension : String := "FORMULA.VALIDATION.LOOKUP_FUNC.UNSELECTED_DIMENSION"

end ErrorCode

namespace ValidationError

def code : ValidationError → String
  | inconsistentAggregation _ => ErrorCode.inconsistentAggregation
  | doubleAggregation _ => ErrorCode.doubleAggregation
  | unknownTimeUnit _ => ErrorCode.unknownTimeUnit
  | argCount _ _ => ErrorCode.argCount

def message : ValidationError → String
  | inconsistentAggregation f => "inconsistent aggregation: " ++ f
  | doubleAggregation f => "double aggregation is not allowed here: " ++ f
  | unknownTimeUnit u => "unknown time unit: " ++ u
  | argCount name got =>
    "invalid number of arguments for function " ++ name ++ ": " ++ toString got

end ValidationError

namespace FormulaError

def code : FormulaError → String
  | unknownDialect _ => ErrorCode.dialectNotSupported
  | unknownFunction _ => ErrorCode.unknownFunction
  | noOverload _ _ => ErrorCode.noOverload
  | dialectNotSupported _ _ => ErrorCode.dialectNotSupported
  | validation e => e.code
  | topLevelDimensions _ => ErrorCode.topLevelDimensions
  | incompatibleDimensions _ => ErrorCode.incompatibleDimensions
  | unknownField _ => ErrorCode.unknownField
  | recorded code _ => code
  | unsupportedNode _ => ErrorCode.unsupportedNode

def message : FormulaError → String
  | unknownDialect name => "unknown dialect: " ++ name
  | unknownFunction name => "unknown function: " ++ name
  | noOverload name argTypes =>
    "no translation found for " ++ name ++ "(" ++
      ", ".intercalate (argTypes.map DataType.name) ++ ")"
  | dialectNotSupported name dialects =>
    "function " ++ name ++ " is not supported for dialect " ++ dialects.text
  | validation e => e.message
  | topLevelDimensions m => m
  | incompatibleDimensions m => m
  | unknownField name => "unknown field: " ++ name
  | recorded _ m => m
  | unsupportedNode m => "unsupported node for translation: " ++ m

/-- The error that an error node stands for. -/
def ofNode (code message : String) : FormulaError :=
  if code = ErrorCode.incompatibleDimensions then incompatibleDimensions message
  else recorded code message

end FormulaError

instance : Coe ValidationError FormulaError := ⟨FormulaError.validation⟩

/-- Reads the name of a set of dialects. -/
def Dialects.read (s : String) : Except FormulaError Dialects :=
  (Dialects.parse s).mapError FormulaError.unknownDialect

end FormulaSql

import FormulaSql.Formula.Basic

/-!
# Building formulas

Short names for nodes without notes.
-/

namespace FormulaSql.Formula

def field (name : String) : Formula := of (.field name)

def lit (value : Literal) : Formula := of (.literal value)

def int (n : Int64) : Formula := lit (.integer n)

def bool (b : Bool) : Formula := lit (.boolean b)

/-- A date, or NULL if the calendar has no such day. -/
def date (year : Int) (month day : Nat) : Formula :=
  match Date.of? year month day with
  | some d => lit (.date d)
  | none => lit .null

/-- A call with a level of detail and filters that come later. -/
def callWith (name : String) (args : List Formula) (lod : Lod Formula) (filters : NameSet) :
    Formula :=
  of (.call ⟨name, args, lod, [], filters⟩)

def call (name : String) (args : List Formula) : Formula :=
  callWith name args .inherited NameSet.empty

def window (name : String) (args : List Formula) (grouping : Grouping Formula)
    (ordering : List Formula) (filters : NameSet) : Formula :=
  of (.window ⟨name, args, grouping, ordering, filters⟩)

def binary (op : String) (left right : Formula) : Formula := of (.binary op left right)

def unary (op : String) (operand : Formula) : Formula := of (.unary op operand)

def ternary (op : String) (first second third : Formula) : Formula :=
  of (.ternary op first second third)

def ifBlock (branches : List (Branch Formula)) (otherwise : Formula) : Formula :=
  of (.ifBlock branches otherwise)

def caseBlock (subject : Formula) (branches : List (Branch Formula)) (otherwise : Formula) :
    Formula :=
  of (.caseBlock subject branches otherwise)

def paren (inner : Formula) : Formula := of (.paren inner)

def ordered (expr : Formula) (direction : Direction) : Formula := of (.ordered expr direction)

def error (message code : String) : Formula := of (.error message code)

/-- A fork without filters of its own. -/
def fork (joinType : JoinType) (result : Formula) (joining : List (JoinCondition Formula))
    (lod : Lod Formula) : Formula :=
  of (.fork ⟨joinType, result, joining, lod, NameSet.empty, []⟩)

end FormulaSql.Formula

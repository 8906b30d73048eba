import FormulaSql.Lowering
import FormulaSql.Query.Error

/-!
# Columns of data sources

Every field that a formula can name is a column of an avatar: an instance of a table in the FROM
clause of a query.
-/

namespace FormulaSql

structure Avatar where
  id : String
  /-- The table that is read. -/
  source : String
  deriving DecidableEq

structure Column where
  fieldId : String
  avatarId : String
  name : String
  type : DataType
  params : TypeParams
  deriving DecidableEq

/-- Avatars and columns in the order in which they were added. -/
structure Registry where
  avatars : List Avatar
  columns : List Column
  deriving DecidableEq

namespace Registry

def empty : Registry := ⟨[], []⟩

def avatar? (r : Registry) (id : String) : Option Avatar := r.avatars.find? fun a => a.id == id

def column? (r : Registry) (fieldId : String) : Option Column :=
  r.columns.find? fun c => c.fieldId == fieldId

/-- The column of a field. -/
def resolve (r : Registry) (fieldId : String) : Except FormulaError Column :=
  match r.column? fieldId with
  | some c => .ok c
  | none => .error (.unknownField fieldId)

/-- Adds an avatar; each id is used once. -/
def addAvatar (r : Registry) (a : Avatar) : Except QueryError Registry :=
  if (r.avatar? a.id).isSome then .error (.duplicateAvatar a.id)
  else .ok { r with avatars := r.avatars ++ [a] }

/-- Adds a column of an avatar that is there; each field is used once. -/
def addColumn (r : Registry) (c : Column) : Except QueryError Registry :=
  if (r.avatar? c.avatarId).isNone then .error (.unknownAvatar c.avatarId)
  else if (r.column? c.fieldId).isSome then .error (.duplicateField c.fieldId)
  else .ok { r with columns := r.columns ++ [c] }

/-- A registry with these avatars and then these columns. -/
def ofLists (avatars : List Avatar) (columns : List Column) : Except QueryError Registry := do
  columns.foldlM addColumn (← avatars.foldlM addAvatar empty)

def columnsOf (r : Registry) (avatarId : String) : List Column :=
  r.columns.filter fun c => c.avatarId == avatarId

/-- The scope in which every field is the column of its avatar. -/
def scope (r : Registry) (dialect : Dialects) : Scope :=
  r.columns.foldl
    (fun s c => s.withField c.fieldId ⟨.column (some c.avatarId) c.name, c.type, c.params⟩)
    (.empty dialect)

end Registry

end FormulaSql

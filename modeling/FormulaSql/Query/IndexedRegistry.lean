import FormulaSql.Query.Registry
import Mathlib.Data.List.Basic

/-!
# Columns in a map

A registry whose columns are looked up by their fields. A map does not keep the order in which the
columns were added, so it is written down beside it, and an accepted column changes both.
-/

namespace FormulaSql

/-- A registry whose columns are looked up in a map. The order of their fields is kept beside it. -/
structure IndexedRegistry where
  avatars : List Avatar
  columns : Std.ExtTreeMap String Column
  order : List String

namespace IndexedRegistry

def empty : IndexedRegistry := ⟨[], ∅, []⟩

def avatar? (k : IndexedRegistry) (id : String) : Option Avatar :=
  k.avatars.find? fun a => a.id == id

/-- The columns in the order of their fields. -/
def listed (k : IndexedRegistry) : List Column := k.order.filterMap fun n => k.columns[n]?

def resolve (k : IndexedRegistry) (n : String) : Except FormulaError Column :=
  match k.columns[n]? with
  | some c => .ok c
  | none => .error (.unknownField n)

def addAvatar (a : Avatar) : EStateM QueryError IndexedRegistry Unit := do
  if ((← get).avatar? a.id).isSome then throw (.duplicateAvatar a.id)
  modify fun k => { k with avatars := k.avatars ++ [a] }

def addColumn (c : Column) : EStateM QueryError IndexedRegistry Unit := do
  if ((← get).avatar? c.avatarId).isNone then throw (.unknownAvatar c.avatarId)
  if (← get).columns.contains c.fieldId then throw (.duplicateField c.fieldId)
  modify fun k => { k with order := k.order ++ [c.fieldId] }
  modify fun k => { k with columns := k.columns.insert c.fieldId c }

/-- Adds these avatars and then these columns. -/
def addLists (avatars : List Avatar) (columns : List Column) :
    EStateM QueryError IndexedRegistry Unit := do
  avatars.forM addAvatar
  columns.forM addColumn

end IndexedRegistry

end FormulaSql

import FormulaSql.Query.Basic

/-!
# Aliases of tables

Tables that are known by unreadable ids get short aliases; the others go by their own id. No two
tables share an alias.
-/

namespace FormulaSql

/-- The aliases that were given out, last one first. -/
structure AliasMap where
  given : List (String × String)
  /-- The names for tables that cannot go by their id. -/
  supply : NameSupply
  deriving DecidableEq

namespace AliasMap

/-- The stem of short aliases. -/
def stem : String := "t"

def empty : AliasMap := ⟨[], .start stem⟩

/-- The alias that was given out for an id. -/
def alias? (m : AliasMap) (id : String) : Option String := m.given.lookup id

/-- The alias belongs to some id already. -/
def isTaken (m : AliasMap) (aliasName : String) : Bool := m.given.any fun g => g.2 == aliasName

/-- The next name of the supply that is not taken, among the next `n` and the one after them. -/
def freshFrom (isTaken : String → Bool) : Nat → NameSupply → String × NameSupply
  | 0, s => s.take
  | n + 1, s => if isTaken s.take.1 then freshFrom isTaken n s.take.2 else s.take

/-- A name that is not taken. No more names can be in the way than were given out. -/
def fresh (m : AliasMap) : String × NameSupply := freshFrom m.isTaken m.given.length m.supply

/-- The alias for an id: the one it has, the id itself if it can be used, or a short name. -/
def aliasFor (isUnreadable : String → Bool) (m : AliasMap) (id : String) : String × AliasMap :=
  match m.alias? id with
  | some aliasName => (aliasName, m)
  | none =>
    if !isUnreadable id && !m.isTaken id then (id, { m with given := (id, id) :: m.given })
    else
      let (aliasName, supply) := m.fresh
      (aliasName, ⟨(id, aliasName) :: m.given, supply⟩)

/-- The aliases for a list of ids. -/
def aliasesFor (isUnreadable : String → Bool) : AliasMap → List String → List String × AliasMap
  | m, [] => ([], m)
  | m, id :: ids =>
    let (aliasName, m) := m.aliasFor isUnreadable id
    let (aliases, m) := m.aliasesFor isUnreadable ids
    (aliasName :: aliases, m)

end AliasMap

end FormulaSql

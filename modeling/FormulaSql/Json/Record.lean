import FormulaSql.Json.Basic

/-!
# Values in JSON form

How numbers, lists, records and choices are read from JSON. A record is an object, or the list of
its members in their declared order. A choice is named by a tag: on its own, around the value
(`{tag: value}`), or beside it (`{"type": tag, content: value}`). How freely a choice is read
depends on the manner of reading.
-/

namespace FormulaSql.Json

variable {α : Type}

/-! ## Manners of reading -/

/-- Where a value is read from. -/
inductive Manner where
  /-- A tree of values. -/
  | tree
  /-- A text, from its beginning to its end. -/
  | stream
  /-- A value that came before the tag that says what it is, and had to be kept until then. -/
  | kept
  deriving DecidableEq

/-- The members of a record inside a tag may be listed. -/
def Manner.takesLists : Manner → Bool
  | tree => false
  | stream => true
  | kept => true

/-- The empty object is as good as NULL inside a tag that has no value. -/
def Manner.takesEmpty : Manner → Bool
  | tree => false
  | stream => false
  | kept => true

/-! ## Plain values -/

def bool? : Json → Option Bool
  | bool b => some b
  | _ => none

def string? : Json → Option String
  | str s => some s
  | _ => none

/-- A whole number within bounds. -/
def intWithin? (low high : Int) : Json → Option Int
  | int n => if low ≤ n && n ≤ high then some n else none
  | _ => none

def int64? (j : Json) : Option Int64 :=
  (j.intWithin? Int64.minValue.toInt Int64.maxValue.toInt).map Int64.ofInt

def int32? (j : Json) : Option Int32 :=
  (j.intWithin? Int32.minValue.toInt Int32.maxValue.toInt).map Int32.ofInt

def uint64? (j : Json) : Option UInt64 :=
  (j.intWithin? 0 (UInt64.size - 1)).map fun n => UInt64.ofNat n.toNat

def uint32? (j : Json) : Option UInt32 :=
  (j.intWithin? 0 (UInt32.size - 1)).map fun n => UInt32.ofNat n.toNat

/-- Any number is a double. -/
def double? : Json → Option Double
  | int n => some (Double.ofInt n)
  | real x => some x
  | _ => none

def list? (item : Json → Option α) : Json → Option (List α)
  | arr items => items.mapM item
  | _ => none

/-- NULL stands for no value. -/
def nullable? (value : Json → Option α) : Json → Option (Option α)
  | null => some none
  | j => (value j).map some

/-! ## Records -/

/-- The members of a record, by name. -/
abbrev Members := String → Option Json

/-- Reads a record with the given members. An object must not repeat one of them and may have
others besides; a list has no more items than there are members. -/
def members? (names : List String) : Json → Option Members
  | obj ms =>
    if names.all fun n => (ms.filter fun m => m.1 == n).length ≤ 1 then some fun n => ms.lookup n
    else none
  | arr items =>
    if items.length ≤ names.length then some fun n => (names.zip items).lookup n else none
  | _ => none

/-- Reads a record that must be an object. -/
def namedMembers? (names : List String) : Json → Option Members
  | obj ms => members? names (obj ms)
  | _ => none

/-- Reads a record inside a tag. -/
def taggedMembers? (m : Manner) (names : List String) (j : Json) : Option Members :=
  if m.takesLists then members? names j else namedMembers? names j

namespace Members

def required (ms : Members) (name : String) (value : Json → Option α) : Option α :=
  match ms name with
  | some j => value j
  | none => none

/-- A member that may be left out. -/
def optional (ms : Members) (name : String) (default : α) (value : Json → Option α) : Option α :=
  match ms name with
  | some j => value j
  | none => some default

/-- A member that may be left out or NULL. -/
def maybe (ms : Members) (name : String) (value : Json → Option α) : Option (Option α) :=
  ms.optional name none (nullable? value)

end Members

/-! ## Choices -/

/-- A choice without a value: its tag, alone or around NULL. -/
def bareTag? (m : Manner) : Json → Option String
  | str s => some s
  | obj [(tag, null)] => some tag
  | obj [(tag, obj [])] => if m.takesEmpty then some tag else none
  | _ => none

/-- A choice with its tag around the value. -/
def tagged? : Json → Option (String × Json)
  | obj [(tag, j)] => some (tag, j)
  | _ => none

/-- A choice with its tag beside its value, as far as it is read without knowing the tag. -/
structure Choice where
  tag : String
  value : Option Json
  /-- How the value is to be read. -/
  manner : Manner

/-- A choice with its tag in `type` and its value in `content`. In a list both must be there. In an
object a value before the tag is kept, and all of it must be readable. -/
def choice? (m : Manner) (content : String) : Json → Option Choice
  | arr [tag, v] => do return ⟨← bareTag? m tag, some v, m⟩
  | obj ms =>
    match ms.filter fun x => x.1 == "type" || x.1 == content with
    | [("type", tag)] => do return ⟨← bareTag? m tag, none, m⟩
    | [("type", tag), (n, v)] =>
      if n == content then do return ⟨← bareTag? m tag, some v, m⟩ else none
    | [(n, v), ("type", tag)] =>
      if n == content && v.isReadable then do return ⟨← bareTag? m tag, some v, .kept⟩ else none
    | _ => none
  | _ => none

/-- The choice has no value. -/
def noContent? : Option Json → Option Unit
  | none => some ()
  | some null => some ()
  | some _ => none

/-- A choice with its tag around the value, written. -/
def tag (name : String) (j : Json) : Json := obj [(name, j)]

/-- A member that is only written when there is a value. -/
def present (name : String) (j : Option Json) : List (String × Json) :=
  match j with
  | some j => [(name, j)]
  | none => []

def strings (ss : List String) : Json := arr (ss.map str)

end FormulaSql.Json

import FormulaSql.Number.Shortest
import FormulaSql.Text.Quoted

/-!
# JSON values

Values of JSON, with whole numbers kept apart from doubles, and their compact text. The members of
an object stay in the order in which they were given, repetitions included.

A text can have the form of JSON in a place where it stands for no value: a number that is too
large, half of a character, too many levels of nesting. Such a place is `unreadable`. It does no
harm as long as nobody reads it.
-/

namespace FormulaSql

inductive Json where
  | null
  | bool (b : Bool)
  | int (n : Int)
  | real (x : Double)
  | str (s : String)
  | arr (items : List Json)
  | obj (members : List (String × Json))
  /-- Of the form of JSON, but no value. -/
  | unreadable

instance : Inhabited Json := ⟨.null⟩

namespace Json

/-! ## Text -/

/-- The four hexadecimal digits of a number below `0x10000`. -/
def fourHex (n : Nat) : List Char :=
  [Text.hexDigit (n / 0x1000 % 16), Text.hexDigit (n / 0x100 % 16), Text.hexDigit (n / 16 % 16),
   Text.hexDigit (n % 16)]

def escapeChar (c : Char) : List Char :=
  if c = '"' then ['\\', '"']
  else if c = '\\' then ['\\', '\\']
  else if c = '\n' then ['\\', 'n']
  else if c = '\r' then ['\\', 'r']
  else if c = '\t' then ['\\', 't']
  else if c.toNat = 8 then ['\\', 'b']
  else if c.toNat = 12 then ['\\', 'f']
  else if c.toNat < 0x20 then '\\' :: 'u' :: fourHex c.toNat
  else [c]

def stringText (s : String) : String :=
  String.ofList ('"' :: s.toList.flatMap escapeChar ++ ['"'])

mutual

/-- The compact text of a value. -/
def text : Json → String
  | null => "null"
  | bool true => "true"
  | bool false => "false"
  | int n => toString n
  | real x => x.text
  | str s => stringText s
  | arr items => "[" ++ ",".intercalate (itemTexts items) ++ "]"
  | obj members => "\x7b" ++ ",".intercalate (memberTexts members) ++ "\x7d"
  | unreadable => "null"

def itemTexts : List Json → List String
  | [] => []
  | j :: js => text j :: itemTexts js

def memberTexts : List (String × Json) → List String
  | [] => []
  | m :: ms => memberText m :: memberTexts ms

def memberText : String × Json → String
  | (name, j) => stringText name ++ ":" ++ text j

end

/-! ## Depth -/

mutual

/-- How deep the value is nested; a scalar has depth zero. -/
def depth : Json → Nat
  | arr items => 1 + itemsDepth items
  | obj members => 1 + membersDepth members
  | _ => 0

def itemsDepth : List Json → Nat
  | [] => 0
  | j :: js => max (depth j) (itemsDepth js)

def membersDepth : List (String × Json) → Nat
  | [] => 0
  | m :: ms => max (memberDepth m) (membersDepth ms)

def memberDepth : String × Json → Nat
  | (_, j) => depth j

end

/-! ## Readable values -/

mutual

/-- Every part of the value is a value. -/
def isReadable : Json → Bool
  | arr items => itemsReadable items
  | obj members => membersReadable members
  | unreadable => false
  | _ => true

def itemsReadable : List Json → Bool
  | [] => true
  | j :: js => isReadable j && itemsReadable js

def membersReadable : List (String × Json) → Bool
  | [] => true
  | m :: ms => memberReadable m && membersReadable ms

def memberReadable : String × Json → Bool
  | (_, j) => isReadable j

end

/-! ## Members by name -/

/-- The members with only the last of those that share a name. -/
def lastMembers : List (String × Json) → List (String × Json)
  | [] => []
  | m :: ms => if ms.any fun n => n.1 == m.1 then lastMembers ms else m :: lastMembers ms

/-- The last member of each name, in the order of the names. -/
def sortedMembers (members : List (String × Json)) : List (String × Json) :=
  (lastMembers members).mergeSort fun a b => a.1 ≤ b.1

mutual

/-- The value in which a later member of an object replaces an earlier one of the same name, and
members stand in the order of their names. -/
def byName : Json → Json
  | arr items => arr (itemsByName items)
  | obj members => obj (sortedMembers (membersByName members))
  | j => j

def itemsByName : List Json → List Json
  | [] => []
  | j :: js => byName j :: itemsByName js

def membersByName : List (String × Json) → List (String × Json)
  | [] => []
  | m :: ms => memberByName m :: membersByName ms

def memberByName : String × Json → String × Json
  | (name, j) => (name, byName j)

end

end Json

end FormulaSql

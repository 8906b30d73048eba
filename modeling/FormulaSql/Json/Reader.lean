import FormulaSql.Json.Token

/-!
# Reading JSON text

Tokens are put together with a stack of the arrays and objects that are still open. A reader may
limit how deep they nest: a deeper one is unreadable, and so is an object with an unreadable name.
-/

namespace FormulaSql.Json

/-- An open array or object with what it holds so far, last one first. -/
inductive Frame where
  | arr (done : List Json)
  /-- `named` says that every name so far is readable. -/
  | obj (done : List (String × Json)) (name : String) (named : Bool)

/-- What has to come next. -/
inductive Expected where
  | value
  /-- A value, or the end of the array just opened. -/
  | firstItem
  /-- A name, or the end of the object just opened. -/
  | firstName
  | name
  | colon
  /-- A comma, or the end of the container. -/
  | separator
  | nothing (result : Json)

structure Partial where
  stack : List Frame
  expected : Expected

namespace Partial

/-- The state after a complete value. -/
def complete (stack : List Frame) (v : Json) : Partial :=
  match stack with
  | [] => ⟨[], .nothing v⟩
  | .arr done :: rest => ⟨.arr (v :: done) :: rest, .separator⟩
  | .obj done name named :: rest => ⟨.obj ((name, v) :: done) name named :: rest, .separator⟩

/-- The state after the first token of a value. -/
def begin (stack : List Frame) : Token → Option Partial
  | .text s => some (complete stack ((s.map Json.str).getD .unreadable))
  | .scalar v => some (complete stack v)
  | .mark c =>
    if c = '[' then some ⟨.arr [] :: stack, .firstItem⟩
    else if c = '\x7b' then some ⟨.obj [] "" true :: stack, .firstName⟩
    else none

/-- A container inside those of the stack may be read. -/
def allows (limit : Option Nat) (stack : List Frame) : Bool :=
  match limit with
  | none => true
  | some n => stack.length + 1 < n

/-- The state after the end of the innermost container. -/
def close (limit : Option Nat) (stack : List Frame) (c : Char) : Option Partial :=
  match stack with
  | .arr done :: rest =>
    if c = ']' then
      some (complete rest (if allows limit rest then .arr done.reverse else .unreadable))
    else none
  | .obj done _ named :: rest =>
    if c = '\x7d' then
      some (complete rest (if named && allows limit rest then .obj done.reverse else .unreadable))
    else none
  | [] => none

/-- The state after the name of a member, `none` if it is unreadable. -/
def named (stack : List Frame) (n : Option String) : Option Partial :=
  match stack with
  | .obj done _ named :: rest => some ⟨.obj done (n.getD "") (named && n.isSome) :: rest, .colon⟩
  | _ => none

/-- The state after a comma. -/
def next (stack : List Frame) : Option Partial :=
  match stack with
  | .arr _ :: _ => some ⟨stack, .value⟩
  | .obj _ _ _ :: _ => some ⟨stack, .name⟩
  | [] => none

def step (limit : Option Nat) (p : Partial) (t : Token) : Option Partial :=
  match p.expected, t with
  | .value, t => begin p.stack t
  | .firstItem, .mark ']' => close limit p.stack ']'
  | .firstItem, t => begin p.stack t
  | .firstName, .mark '\x7d' => close limit p.stack '\x7d'
  | .firstName, .text n => named p.stack n
  | .name, .text n => named p.stack n
  | .colon, .mark ':' => some ⟨p.stack, .value⟩
  | .separator, .mark ',' => next p.stack
  | .separator, .mark c => close limit p.stack c
  | _, _ => none

end Partial

/-- The value that the tokens spell. -/
def ofTokens (limit : Option Nat) (ts : List Token) : Option Json := do
  let p ← ts.foldlM (Partial.step limit) ⟨[], .value⟩
  match p.expected with
  | .nothing v => some v
  | _ => none

/-- Reads a text that may have unreadable places. With a limit of `n`, readable containers nest
less than `n` deep. -/
def scan? (limit : Option Nat) (s : String) : Option Json := do
  ofTokens limit (← tokens s)

/-- Reads a text without unreadable places. -/
def parse? (s : String) : Option Json := (scan? none s).filter isReadable

end FormulaSql.Json

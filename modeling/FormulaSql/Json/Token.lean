import FormulaSql.Json.Basic

/-!
# Tokens of JSON text

The text is read one character at a time. Between two characters the reader remembers what it is
in the middle of: nothing, a word, a number, or a text with its escapes. A number that is too large
and a text with half of a character are tokens, but they are unreadable.
-/

namespace FormulaSql.Json

inductive Token where
  /-- One of the marks of punctuation. -/
  | mark (c : Char)
  /-- A text, unless it has half of a character. -/
  | text (s : Option String)
  /-- Any other value without parts. -/
  | scalar (v : Json)

/-! ## Numbers -/

def digitsValue (ds : List Char) : Nat :=
  ds.foldl (fun n c => 10 * n + (c.toNat - 48)) 0

/-- A whole part has no leading zero. -/
def isWholePart (ds : List Char) : Bool :=
  match ds with
  | [] => false
  | ['0'] => true
  | d :: _ => d != '0'

/-- The digits after a point, and the rest. -/
def fractionPart : List Char → Option (List Char × List Char)
  | '.' :: cs =>
    let ds := cs.takeWhile Char.isDigit
    if ds.isEmpty then none else some (ds, cs.drop ds.length)
  | cs => some ([], cs)

/-- Digits to the end of the text. -/
def allDigits? (cs : List Char) : Option Nat :=
  if cs.isEmpty || !cs.all Char.isDigit then none else some (digitsValue cs)

/-- The exponent with which a number ends, if it has one. -/
def exponentPart : List Char → Option (Option Int)
  | [] => some none
  | e :: cs =>
    if e != 'e' && e != 'E' then none
    else
      match cs with
      | '-' :: cs => (allDigits? cs).map fun n => some (-(n : Int))
      | '+' :: cs => (allDigits? cs).map fun n => some (n : Int)
      | cs => (allDigits? cs).map fun n => some (n : Int)

/-- A double, unless it is too large to be one. -/
def finite (x : Double) : Json := if x.isFinite then real x else unreadable

/-- A whole number within the range of 64 bits stays one; anything else is a double, and so is a
zero with a sign. -/
def number? (cs : List Char) : Option Json := do
  let (negative, cs) := match cs with
    | '-' :: cs => (true, cs)
    | cs => (false, cs)
  let whole := cs.takeWhile Char.isDigit
  if !isWholePart whole then none
  let (fraction, rest) ← fractionPart (cs.drop whole.length)
  let exponent ← exponentPart rest
  let mantissa := digitsValue (whole ++ fraction)
  if fraction.isEmpty && exponent.isNone then
    if negative then
      if 0 < mantissa && mantissa ≤ Int64.minValue.toInt.natAbs then return int (-(mantissa : Int))
    else if mantissa < UInt64.size then return int mantissa
  return finite (Double.ofDecimal negative mantissa (exponent.getD 0 - fraction.length))

def word? (cs : List Char) : Option Json :=
  if cs = ['n', 'u', 'l', 'l'] then some null
  else if cs = ['t', 'r', 'u', 'e'] then some (bool true)
  else if cs = ['f', 'a', 'l', 's', 'e'] then some (bool false)
  else none

/-! ## The reader of characters -/

/-- What the reader is in the middle of. Characters that were read are kept last one first; a text
with half of a character keeps none. -/
inductive Mode where
  | between
  | word (read : List Char)
  | number (read : List Char)
  /-- Inside a text. -/
  | text (read : Option (List Char))
  /-- After a backslash in a text. -/
  | escape (read : Option (List Char))
  /-- In the number of an escaped character: its digits so far, and how many are missing. `high`
  is the first half of a pair that this number completes. -/
  | hex (read : Option (List Char)) (high : Option Nat) (value missing : Nat)
  /-- After the first half of a pair, before the backslash of the second. -/
  | pairBackslash (read : Option (List Char)) (high : Nat)
  /-- After the first half of a pair, before the letter of the second. -/
  | pairLetter (read : Option (List Char)) (high : Nat)

def isSpace (c : Char) : Bool := c == ' ' || c == '\t' || c == '\n' || c == '\r'

def isMark (c : Char) : Bool :=
  c == '[' || c == ']' || c == '\x7b' || c == '\x7d' || c == ',' || c == ':'

def isNumberChar (c : Char) : Bool :=
  c.isDigit || c == '-' || c == '+' || c == '.' || c == 'e' || c == 'E'

def hexValue? (c : Char) : Option Nat :=
  let n := c.toNat
  if 48 ≤ n && n ≤ 57 then some (n - 48)
  else if 97 ≤ n && n ≤ 102 then some (n - 87)
  else if 65 ≤ n && n ≤ 70 then some (n - 55)
  else none

/-- The character that an escape of one letter stands for. -/
def escaped? (c : Char) : Option Char :=
  if c = '"' || c = '\\' || c = '/' then some c
  else if c = 'b' then some (Char.ofNat 8)
  else if c = 'f' then some (Char.ofNat 12)
  else if c = 'n' then some '\n'
  else if c = 'r' then some '\r'
  else if c = 't' then some '\t'
  else none

/-- One more character of a text. -/
def addChar (read : Option (List Char)) (n : Nat) : Option (List Char) :=
  read.map fun cs => Char.ofNat n :: cs

/-- After the last digit of an escaped character. A number in the range of pairs must come in two
halves in the right order. -/
def afterHex (read : Option (List Char)) (high : Option Nat) (n : Nat) : Mode :=
  let isHigh := 0xD800 ≤ n && n < 0xDC00
  let isLow := 0xDC00 ≤ n && n < 0xE000
  match high with
  | none =>
    if isHigh then .pairBackslash read n
    else if isLow then .text none
    else .text (addChar read n)
  | some h =>
    if isLow then .text (addChar read (0x10000 + (h - 0xD800) * 0x400 + (n - 0xDC00)))
    else .text none

/-- Reads a character of a text. -/
def fromText (read : Option (List Char)) (c : Char) : Option (Mode × List Token) :=
  if c = '"' then some (.between, [.text (read.map fun cs => String.ofList cs.reverse)])
  else if c = '\\' then some (.escape read, [])
  else if c.toNat < 0x20 then none
  else some (.text (addChar read c.toNat), [])

/-- Reads the letter of an escape. -/
def fromEscape (read : Option (List Char)) (c : Char) : Option (Mode × List Token) :=
  if c = 'u' then some (.hex read none 0 4, [])
  else (escaped? c).map fun c => (.text (addChar read c.toNat), [])

/-- Reads a character between tokens. -/
def fromBetween (c : Char) : Option (Mode × List Token) :=
  if isSpace c then some (.between, [])
  else if isMark c then some (.between, [.mark c])
  else if c = '"' then some (.text (some []), [])
  else if c = '-' || c.isDigit then some (.number [c], [])
  else if c.isLower then some (.word [c], [])
  else none

/-- Reads one character: what the reader is then in the middle of, and the tokens that end. -/
def Mode.step (m : Mode) (c : Char) : Option (Mode × List Token) :=
  match m with
  | .between => fromBetween c
  | .word read =>
    if c.isLower then some (.word (c :: read), [])
    else do
      let v ← word? read.reverse
      let (m, ts) ← fromBetween c
      return (m, .scalar v :: ts)
  | .number read =>
    if isNumberChar c then some (.number (c :: read), [])
    else do
      let v ← number? read.reverse
      let (m, ts) ← fromBetween c
      return (m, .scalar v :: ts)
  | .text read => fromText read c
  | .escape read => fromEscape read c
  | .hex read high value missing => do
    let n := 16 * value + (← hexValue? c)
    if missing ≤ 1 then return (afterHex read high n, [])
    else return (.hex read high n (missing - 1), [])
  | .pairBackslash read high =>
    if c = '\\' then some (.pairLetter read high, []) else fromText none c
  | .pairLetter read high =>
    if c = 'u' then some (.hex read (some high) 0 4, []) else fromEscape none c

/-- The tokens that end with the text. -/
def Mode.finish : Mode → Option (List Token)
  | .between => some []
  | .word read => (word? read.reverse).map fun v => [.scalar v]
  | .number read => (number? read.reverse).map fun v => [.scalar v]
  | _ => none

/-- The tokens of a text, read from the given state on. -/
def tokensFrom (m : Mode) : List Char → Option (List Token)
  | [] => m.finish
  | c :: cs => do
    let (m, ts) ← m.step c
    return ts ++ (← tokensFrom m cs)

def tokens (s : String) : Option (List Token) := tokensFrom .between s.toList

end FormulaSql.Json

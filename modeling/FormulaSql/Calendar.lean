import FormulaSql.Text.Blank

/-!
# Calendar dates and times of day

Dates of the proleptic Gregorian calendar and date-times without a zone, with their ISO 8601 text.
Years outside `0 … 9999` are written with a sign. Fractions of a second have three, six or nine
digits, as few as are needed and none for a whole second. A reader also takes blanks around the
fields, and months, days, hours, minutes and seconds of one digit.
-/

namespace FormulaSql

/-! ## Values -/

def isLeapYear (year : Int) : Bool :=
  year % 4 == 0 && (year % 100 != 0 || year % 400 == 0)

def daysInMonth (year : Int) : Nat → Nat
  | 2 => if isLeapYear year then 29 else 28
  | 4 | 6 | 9 | 11 => 30
  | _ => 31

namespace Date

/-- The first and the last year that dates cover. -/
def minYear : Int := -262143
def maxYear : Int := 262142

/-- The fields name a day of the calendar. -/
def IsDay (year : Int) (month day : Nat) : Bool :=
  minYear ≤ year && year ≤ maxYear && 1 ≤ month && month ≤ 12 &&
    1 ≤ day && day ≤ daysInMonth year month

end Date

/-- A day of the calendar. -/
structure Date where
  year : Int
  month : Nat
  day : Nat
  isDay : Date.IsDay year month day = true
  deriving DecidableEq

/-- The day with these fields, if there is one. -/
def Date.of? (year : Int) (month day : Nat) : Option Date :=
  if h : Date.IsDay year month day = true then some ⟨year, month, day, h⟩ else none

namespace Time

/-- The fields name a moment of a day. A leap second is the second 59 with a second or more of
nanoseconds. -/
def IsMoment (hour minute second nano : Nat) : Bool :=
  hour < 24 && minute < 60 && second < 60 && nano < 2000000000 &&
    (nano < 1000000000 || second == 59)

end Time

/-- A time of day. -/
structure Time where
  hour : Nat
  minute : Nat
  second : Nat
  nano : Nat
  isMoment : Time.IsMoment hour minute second nano = true
  deriving DecidableEq

/-- The moment with these fields, if there is one. -/
def Time.of? (hour minute second nano : Nat) : Option Time :=
  if h : Time.IsMoment hour minute second nano = true then some ⟨hour, minute, second, nano, h⟩
  else none

structure DateTime where
  date : Date
  time : Time
  deriving DecidableEq

/-! ## Text -/

/-- Decimal digits, filled with zeros from the left up to `width`. -/
def padded (width n : Nat) : List Char :=
  let ds := Nat.toDigits 10 n
  List.replicate (width - ds.length) '0' ++ ds

namespace Date

def yearChars (year : Int) : List Char :=
  if 0 ≤ year && year ≤ 9999 then padded 4 year.natAbs
  else (if year < 0 then '-' else '+') :: padded 4 year.natAbs

def chars (d : Date) : List Char :=
  yearChars d.year ++ '-' :: padded 2 d.month ++ '-' :: padded 2 d.day

/-- The text `YYYY-MM-DD`. -/
def text (d : Date) : String := String.ofList d.chars

end Date

namespace Time

def fractionChars (nano : Nat) : List Char :=
  if nano = 0 then []
  else if nano % 1000000 = 0 then '.' :: padded 3 (nano / 1000000)
  else if nano % 1000 = 0 then '.' :: padded 6 (nano / 1000)
  else '.' :: padded 9 nano

def chars (t : Time) : List Char :=
  let leap := 1000000000 ≤ t.nano
  let second := if leap then t.second + 1 else t.second
  let nano := if leap then t.nano - 1000000000 else t.nano
  padded 2 t.hour ++ ':' :: padded 2 t.minute ++ ':' :: padded 2 second ++ fractionChars nano

end Time

/-- The date and the time of day with `separator` between them. -/
def DateTime.text (separator : Char) (dt : DateTime) : String :=
  String.ofList (dt.date.chars ++ separator :: dt.time.chars)

/-! ## Reading -/

namespace Calendar

def digitsValue (ds : List Char) : Nat :=
  ds.foldl (fun n c => 10 * n + (c.toNat - 48)) 0

/-- One or more digits, at most `width` of them. -/
def number (width : Nat) (cs : List Char) : Option (Nat × List Char) :=
  let ds := (cs.take width).takeWhile Char.isDigit
  if ds.isEmpty then none else some (digitsValue ds, cs.drop ds.length)

/-- A field of at most two digits after blanks. -/
def field (cs : List Char) : Option (Nat × List Char) :=
  number 2 (Text.dropBlanks cs)

/-- A year: four digits at most, or any number of them after a sign. -/
def year (cs : List Char) : Option (Int × List Char) :=
  match Text.dropBlanks cs with
  | '-' :: rest => (number rest.length rest).map fun (n, rest) => (-(n : Int), rest)
  | '+' :: rest => (number rest.length rest).map fun (n, rest) => ((n : Int), rest)
  | cs => (number 4 cs).map fun (n, rest) => ((n : Int), rest)

/-- The rest after `mark`, which may follow blanks. -/
def skip (mark : Char) (cs : List Char) : Option (List Char) :=
  match Text.dropBlanks cs with
  | c :: rest => if c = mark then some rest else none
  | [] => none

def date (cs : List Char) : Option (Date × List Char) := do
  let (y, cs) ← year cs
  let (m, cs) ← field (← skip '-' cs)
  let (d, cs) ← field (← skip '-' cs)
  return (← Date.of? y m d, cs)

/-- An optional fraction of a second as nanoseconds; digits after the ninth are passed over. -/
def fraction (cs : List Char) : Option (Nat × List Char) :=
  match cs with
  | '.' :: cs =>
    let ds := cs.takeWhile Char.isDigit
    if ds.isEmpty then none
    else
      let kept := ds.take 9
      some (digitsValue kept * Nat.pow 10 (9 - kept.length), cs.drop ds.length)
  | cs => some (0, cs)

def time (cs : List Char) : Option (Time × List Char) := do
  let (h, cs) ← field cs
  let (m, cs) ← field (← skip ':' cs)
  let (s, cs) ← field (← skip ':' cs)
  let (n, cs) ← fraction cs
  let t ← if s = 60 then Time.of? h m 59 (n + 1000000000) else Time.of? h m s n
  return (t, cs)

end Calendar

/-- Reads `YYYY-MM-DD`. -/
def Date.read? (s : String) : Option Date := do
  let (d, rest) ← Calendar.date s.toList
  if (Text.dropBlanks rest).isEmpty then some d else none

/-- Reads `YYYY-MM-DDTHH:MM:SS` with an optional fraction. -/
def DateTime.read? (s : String) : Option DateTime := do
  let (d, rest) ← Calendar.date s.toList
  let (t, rest) ← Calendar.time (← Calendar.skip 'T' rest)
  if (Text.dropBlanks rest).isEmpty then some ⟨d, t⟩ else none

end FormulaSql

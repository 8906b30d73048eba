import FormulaSql.Number.Double

/-!
# The shortest decimal of a double

Of all decimals that read back as a given double, the text uses one with the fewest digits, and of
those the nearest to the double. It is written positionally between `1e-4` and `1e16`, always with
a digit after the point, and with an exponent elsewhere.
-/

namespace FormulaSql.Double

/-- A positive number `mantissa · 2 ^ exponent` with the ends of the interval of reals that round
to it, all counted in quarters of `2 ^ exponent`. -/
structure Interval where
  low : Nat
  value : Nat
  high : Nat
  exponent : Int
  /-- The ends round to the number as well. -/
  closed : Bool

/-- The rounding interval of a double that is finite and not zero. Below a power of two the
doubles lie twice as close. -/
def interval (d : Double) : Interval :=
  let field : Nat := d.magnitude / exponentBit
  let fraction : Nat := d.magnitude % exponentBit
  let mantissa : Nat := if field = 0 then fraction else fraction + exponentBit
  let exponent : Int := if field = 0 then -1074 else (field : Int) - 1075
  { low := if fraction = 0 && 1 < field then 4 * mantissa - 1 else 4 * mantissa - 2
    value := 4 * mantissa
    high := 4 * mantissa + 2
    exponent := exponent - 2
    closed := mantissa % 2 == 0 }

namespace Interval

/-- `c · 10 ^ s` and a count of quarters brought to one denominator. -/
def scaled (i : Interval) (s : Int) (c quarters : Nat) : Nat × Nat :=
  (c * Nat.pow 10 s.toNat * Nat.pow 2 (-i.exponent).toNat,
   quarters * Nat.pow 2 i.exponent.toNat * Nat.pow 10 (-s).toNat)

/-- The decimal `c · 10 ^ s` reads back as the number. -/
def holds (i : Interval) (s : Int) (c : Nat) : Bool :=
  let (a, low) := i.scaled s c i.low
  let (_, high) := i.scaled s c i.high
  if i.closed then low ≤ a && a ≤ high else low < a && a < high

/-- The largest `c` with `c · 10 ^ s` not above the number. -/
def below (i : Interval) (s : Int) : Nat :=
  let (unit, value) := i.scaled s 1 i.value
  value / unit

/-- The number is at least as near to `(c + 1) · 10 ^ s` as to `c · 10 ^ s`. -/
def nearerAbove (i : Interval) (s : Int) (c : Nat) : Bool :=
  let (a, value) := i.scaled s (2 * c + 1) (2 * i.value)
  a ≤ value

/-- On the grid of multiples of `10 ^ s`, the decimal nearest to the number that reads back. -/
def onGrid (i : Interval) (s : Int) : Option Nat :=
  let c := i.below s
  match i.holds s c, i.holds s (c + 1) with
  | true, true => some (if i.nearerAbove s c then c + 1 else c)
  | true, false => some c
  | false, true => some (c + 1)
  | false, false => none

/-- The place of the first digit: the number lies in `[10 ^ (p - 1), 10 ^ p)`. -/
def place (i : Interval) : Int :=
  (digitCount (i.below (-330)) : Int) - 330

end Interval

/-- Digits without the zeros at the end. -/
def dropZeros (ds : List Char) : List Char :=
  (ds.reverse.dropWhile (· == '0')).reverse

/-- The digits and the place of the point of the shortest decimal, trying one digit more each
time. Seventeen digits always suffice. -/
def shortest (d : Double) : List Char × Int :=
  let i := d.interval
  let found := (List.range 17).findSome? fun (k : Nat) =>
    let s := i.place - (k + 1 : Nat)
    (i.onGrid s).map fun c => (c, s)
  match found with
  | some (c, s) =>
    let ds := Nat.toDigits 10 c
    (dropZeros ds, s + ds.length)
  | none => (['0'], 1)

/-- `ds` with the point after `point` digits, and at least one digit on each side. -/
def positional (ds : List Char) (point : Int) : List Char :=
  if point ≤ 0 then
    ['0', '.'] ++ List.replicate (-point).toNat '0' ++ ds
  else
    let n := point.toNat
    let whole := ds.take n ++ List.replicate (n - ds.length) '0'
    let rest := ds.drop n
    whole ++ ['.'] ++ (if rest.isEmpty then ['0'] else rest)

/-- `ds` with the point after the first digit, and an exponent. -/
def scientific (ds : List Char) (point : Int) : List Char :=
  let rest := ds.drop 1
  ds.take 1 ++ (if rest.isEmpty then [] else '.' :: rest) ++ 'e' :: (toString (point - 1)).toList

/-- The text of a double. -/
def text (d : Double) : String :=
  if d.isNaN then "NaN"
  else
    let sign := if d.isNegative then "-" else ""
    if !d.isFinite then sign ++ "inf"
    else if d.isZero then sign ++ "0.0"
    else
      let (ds, point) := d.shortest
      sign ++ String.ofList
        (if -3 ≤ point && point ≤ 16 then positional ds point else scientific ds point)

end FormulaSql.Double

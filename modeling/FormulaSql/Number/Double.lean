/-!
# Double-precision numbers

A double is kept as its 64 bits, so that reading, writing and comparing it are integer work.
Arithmetic is that of the machine. Reading a decimal rounds to the nearest double, halves to the
even one.
-/

namespace FormulaSql

/-- A double-precision number, by its bit pattern: sign, eleven exponent bits, 52 fraction bits. -/
structure Double where
  bits : UInt64
  deriving DecidableEq, Repr

namespace Double

/-- The weight of the sign bit. -/
def signBit : Nat := 0x8000000000000000

/-- The weight of the lowest exponent bit, which is the number of fractions. -/
def exponentBit : Nat := 0x10000000000000

/-- The sign bit is set. -/
def isNegative (d : Double) : Bool := signBit ≤ d.bits.toNat

/-- The bits below the sign. -/
def magnitude (d : Double) : Nat := d.bits.toNat % signBit

/-- The magnitude of infinity; everything above it is not a number. -/
def infinityMagnitude : Nat := 0x7FF * exponentBit

def isFinite (d : Double) : Bool := d.magnitude < infinityMagnitude

def isNaN (d : Double) : Bool := infinityMagnitude < d.magnitude

/-- Both zeros count. -/
def isZero (d : Double) : Bool := d.magnitude == 0

/-- The number is `1.0`. -/
def isOne (d : Double) : Bool := d.bits.toNat == 0x3FF * exponentBit

def ofSignMagnitude (negative : Bool) (magnitude : Nat) : Double :=
  ⟨UInt64.ofNat ((if negative then signBit else 0) + magnitude)⟩

/-- One representative for all numbers that compare equal: the zeros are equal, and so are all
patterns that are not a number. -/
def canonical (d : Double) : Double :=
  if d.isZero then ofSignMagnitude false 0
  else if d.isNaN then ofSignMagnitude false (infinityMagnitude + exponentBit / 2)
  else d

/-! ## Rounding -/

/-- The quotient rounded to the nearest integer, halves to the even one. -/
def roundDiv (num den : Nat) : Nat :=
  let floor := num / den
  let rest := num % den
  if 2 * rest < den then floor
  else if den < 2 * rest then floor + 1
  else if floor % 2 = 0 then floor else floor + 1

/-- The exponent of the unit in the last place of the double nearest to `num / den`. -/
def unitExponent (num den : Nat) : Int :=
  let guess : Int := (num.log2 : Int) - den.log2 - 52
  let scaledNum := num * Nat.pow 2 (-guess).toNat
  let scaledDen := den * Nat.pow 2 guess.toNat
  max (if scaledNum < scaledDen * exponentBit then guess - 1 else guess) (-1074)

/-- The magnitude of the double nearest to the positive number `num / den`. -/
def roundedMagnitude (num den : Nat) : Nat :=
  let e := unitExponent num den
  let mantissa := roundDiv (num * Nat.pow 2 (-e).toNat) (den * Nat.pow 2 e.toNat)
  min ((e + 1074).toNat * exponentBit + mantissa) infinityMagnitude

/-- How many decimal digits a number has. -/
def digitCount (n : Nat) : Nat := (Nat.toDigits 10 n).length

/-- The double nearest to `mantissa · 10 ^ exponent`. Beyond the range of doubles the powers of
ten need not be computed. -/
def ofDecimal (negative : Bool) (mantissa : Nat) (exponent : Int) : Double :=
  let place : Int := exponent + digitCount mantissa
  if mantissa = 0 || place < -330 then ofSignMagnitude negative 0
  else if 310 < place then ofSignMagnitude negative infinityMagnitude
  else ofSignMagnitude negative
    (roundedMagnitude (mantissa * Nat.pow 10 exponent.toNat) (Nat.pow 10 (-exponent).toNat))

/-- The double nearest to an integer. -/
def ofInt (n : Int) : Double := ofDecimal (n < 0) n.natAbs 0

/-! ## Arithmetic -/

def toFloat (d : Double) : Float := Float.ofBits d.bits

def ofFloat (x : Float) : Double := ⟨x.toBits⟩

def add (a b : Double) : Double := ofFloat (a.toFloat + b.toFloat)

def sub (a b : Double) : Double := ofFloat (a.toFloat - b.toFloat)

def mul (a b : Double) : Double := ofFloat (a.toFloat * b.toFloat)

def div (a b : Double) : Double := ofFloat (a.toFloat / b.toFloat)

end Double

end FormulaSql

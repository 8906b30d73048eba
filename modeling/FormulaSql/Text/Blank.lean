/-!
# Blank characters

The characters of the Unicode class White_Space, and texts without them at either end.
-/

namespace FormulaSql.Text

/-- The character belongs to the class White_Space. -/
def isBlank (c : Char) : Bool :=
  let n := c.toNat
  (0x09 ≤ n && n ≤ 0x0D) || n == 0x20 || n == 0x85 || n == 0xA0 || n == 0x1680 ||
    (0x2000 ≤ n && n ≤ 0x200A) || n == 0x2028 || n == 0x2029 || n == 0x202F || n == 0x205F ||
    n == 0x3000

/-- The characters after the leading blanks. -/
def dropBlanks (cs : List Char) : List Char :=
  cs.dropWhile isBlank

/-- The text without the blanks at its two ends. -/
def trimmed (s : String) : String :=
  String.ofList (dropBlanks (dropBlanks s.toList).reverse).reverse

end FormulaSql.Text

/-!
# UUIDs

A UUID is written as 32 hexadecimal digits, or with hyphens after 8, 12, 16 and 20 of them. The
hyphenated form may stand in braces or after `urn:uuid:`.
-/

namespace FormulaSql.Text

def isHexDigit (c : Char) : Bool :=
  c.isDigit || ('a' ≤ c && c ≤ 'f') || ('A' ≤ c && c ≤ 'F')

def isSimpleUuid (cs : List Char) : Bool := cs.length == 32 && cs.all isHexDigit

/-- The places of the hyphens. -/
def uuidHyphens : List Nat := [8, 13, 18, 23]

def isHyphenatedUuid (cs : List Char) : Bool :=
  cs.length == 36 &&
    cs.zipIdx.all fun (c, i) => if uuidHyphens.contains i then c == '-' else isHexDigit c

/-- What follows a beginning that is written in any case. -/
def dropBeginning? (beginning : String) (cs : List Char) : Option (List Char) :=
  let n := beginning.length
  if (cs.take n).map Char.toLower == beginning.toList then some (cs.drop n) else none

/-- The text between braces. -/
def inBraces? : List Char → Option (List Char)
  | '\x7b' :: cs => if cs.getLast? == some '\x7d' then some cs.dropLast else none
  | _ => none

/-- The text is a UUID in one of its forms; digits and letters may be in any case. -/
def isUuid (s : String) : Bool :=
  let cs := s.toList
  isSimpleUuid cs || isHyphenatedUuid cs ||
    (inBraces? cs).any isHyphenatedUuid ||
    (dropBeginning? "urn:uuid:" cs).any isHyphenatedUuid

end FormulaSql.Text

import FormulaSql.Error
import FormulaSql.Json.Record
import FormulaSql.NameSet

/-!
# Types, dialects and sets of names in JSON form

Types and dialects are written by name, sets of names as sorted lists.
-/

namespace FormulaSql

def DataType.toJson (t : DataType) : Json := .str t.name

def DataType.ofJson? (m : Json.Manner) (j : Json) : Option DataType := do
  DataType.ofName? (← j.bareTag? m)

def TypeParams.toJson (p : TypeParams) : Json :=
  .obj (Json.present "timezone" (p.timezone.map .str))

def TypeParams.ofJson? (j : Json) : Option TypeParams := do
  let ms ← j.members? ["timezone"]
  return ⟨← ms.maybe "timezone" Json.string?⟩

def Dialects.toJson (d : Dialects) : Json := .str d.text

def Dialects.ofJson? (j : Json) : Option Dialects := do
  (Dialects.parse (← j.string?)).toOption

def NameSet.toJson (s : NameSet) : Json := Json.strings s.toList

def NameSet.ofJson? (j : Json) : Option NameSet :=
  (j.list? Json.string?).map NameSet.ofList

end FormulaSql

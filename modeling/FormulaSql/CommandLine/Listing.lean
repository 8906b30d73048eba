import FormulaSql.Function.Catalogue
import FormulaSql.Json.Names
import FormulaSql.Query.Basic
import FormulaSql.Formula.Text

/-!
# Listings

The dialects, functions and compiled queries as a user reads them.
-/

namespace FormulaSql.CommandLine

/-- Lines, each with its end. -/
def lines (ls : List String) : String := String.join (ls.map fun l => l ++ "\n")

/-! ## Functions -/

/-- A function with all of its definitions together. -/
structure ListedFunction where
  name : String
  isWindow : Bool
  categories : List Category
  dialects : Dialects

namespace ListedFunction

/-- The category of all definitions, if they share one. -/
def category (f : ListedFunction) : String :=
  match f.categories with
  | [c] => c.name
  | _ => "mixed"

def text (f : ListedFunction) : String :=
  f.name ++ (if f.isWindow then " (window)" else "") ++ "\t" ++ f.category ++ "\t" ++
    f.dialects.text

def toJson (f : ListedFunction) : Json :=
  .obj [("name", .str f.name), ("category", .str f.category), ("is_window", .bool f.isWindow),
    ("dialects", f.dialects.toJson)]

/-- The entry for a name, given all definitions that are listed. -/
def ofDefinitions (defs : List Definition) (name : String) (isWindow : Bool) : ListedFunction :=
  let own := defs.filter fun d => d.name == name && d.isWindow == isWindow
  ⟨name, isWindow, (own.map Definition.category).eraseDups,
    own.foldl (fun acc d => acc ||| d.dialects) .empty⟩

/-- Functions are listed by name, window functions after others of the same name. -/
def before (a b : String × Bool) : Bool :=
  if a.1 == b.1 then !a.2 || b.2 else a.1 < b.1

/-- The documented functions, or those of them that can be written for a dialect. -/
def all (dialect : Option Dialects) : List ListedFunction :=
  let defs := catalogue.filter fun d =>
    d.scopes.contains .documented && dialect.all fun x => (d.variantFor? x).isSome
  let keys := (defs.map fun d => (d.name, d.isWindow)).eraseDups.mergeSort before
  keys.map fun k => ofDefinitions defs k.1 k.2

end ListedFunction

/-! ## Queries -/

def sourceLine : Source → String
  | .table id _ source => "  from: " ++ id ++ " (table " ++ source ++ ")"
  | .subquery id _ queryId _ => "  from: " ++ id ++ " (query " ++ queryId ++ ")"

def entryLine (e : Entry) : String :=
  match e.aliasName with
  | some aliasName => "    " ++ e.formula.text ++ " AS " ++ aliasName
  | none => "    " ++ e.formula.text

/-- The title of a part. -/
def title : Part → String
  | .select => "select"
  | .groupBy => "group by"
  | .filters => "filters"
  | .orderBy => "order by"
  | .joinOn => "join on"

/-- A part with its formulas, which is left out when it has none. -/
def partLines (q : Query) (p : Part) : List String :=
  if (q.part p).isEmpty then [] else ("  " ++ title p ++ ":") :: (q.part p).map entryLine

def queryLines (q : Query) : List String :=
  ("query " ++ q.id) :: q.sources.map sourceLine ++ Part.all.flatMap (partLines q)

def multiQueryText (m : MultiQuery) : String := lines (m.queries.flatMap queryLines)

end FormulaSql.CommandLine

import FormulaSql.CommandLine.Arguments
import FormulaSql.CommandLine.Listing
import FormulaSql.Json.Reader
import FormulaSql.Query.Json
import FormulaSql.Split.Rounds
import FormulaSql.Statement.Build
import FormulaSql.Statement.Json
import FormulaSql.Statement.Text

/-!
# Running a command

What a command prints and how it ends, given the contents of the files that it names. Errors in
formulas are part of the output; any other error ends the command.
-/

namespace FormulaSql.CommandLine

/-- What a command leaves behind. -/
structure Outcome where
  status : UInt32
  stdout : String
  stderr : String
  deriving DecidableEq

namespace Outcome

def success (output : String) : Outcome := ⟨0, output, ""⟩

def json (j : Json) : Outcome := success (lines [j.text])

def failure (message : String) : Outcome := ⟨1, "", lines ["Error: " ++ message]⟩

end Outcome

/-- The outcome of a command, or the message with which it ends. -/
abbrev Result := Except String Outcome

/-! ## Input -/

/-- The contents of files, by path. -/
abbrev Files := String → Option String

/-- How deep the readable values of a file may nest, plus one. -/
def depthLimit : Nat := 128

/-- Reads a file with a value of some kind. -/
def load {α : Type} (files : Files) (what path : String) (decode : Json → Option α) :
    Except String α := do
  let some text := files path | throw ("read " ++ what ++ " " ++ path)
  match (Json.scan? (some depthLimit) text).bind decode with
  | some a => return a
  | none => throw ("parse " ++ what ++ " " ++ path)

def readDialect (input : String) : Except String Dialects :=
  match Dialects.parse input with
  | .ok d => .ok d
  | .error _ => .error ("unknown dialect '" ++ input ++ "' (see \x60dialects\x60)")

/-- What a command compiles. -/
structure Input where
  spec : QuerySpec
  registry : Registry
  settings : Settings

namespace Input

/-- Reads the files and then the options, which win over the settings. -/
def load (files : Files) (a : QueryArgs) : Except String Input := do
  let spec ← CommandLine.load files "query spec" a.spec (QuerySpec.ofJson? .stream)
  let registry ← CommandLine.load files "registry" a.registry (Registry.ofJson? .stream)
  let settings ←
    match a.settings with
    | some path => CommandLine.load files "settings" path Settings.ofJson?
    | none => pure .default
  let dialect ←
    match a.dialect with
    | some d => readDialect d
    | none => pure settings.dialect
  let disableOptimizations := a.disableOptimizations || settings.disableOptimizations
  return ⟨spec, registry, { settings with dialect, disableOptimizations }⟩

def queries (i : Input) : Except QueryError MultiQuery := i.spec.compileMulti i.registry i.settings

def statements (i : Input) : Except QueryError MultiStatement := do
  (← i.queries).statements i.registry i.settings.dialect

end Input

/-! ## Output -/

def errorLine (e : FormulaError) : String := "error[" ++ e.code ++ "]: " ++ e.message

def errorJson (e : FormulaError) : Json := .obj [("code", .str e.code), ("message", .str e.message)]

/-- Reports the errors in formulas; other errors end the command. -/
def report (format : OutputFormat) (e : QueryError) : Result :=
  match e.formulaErrors, format with
  | [], _ => .error e.message
  | errors, .text => .ok ⟨1, "", lines (errors.map errorLine)⟩
  | errors, .json =>
    .ok ⟨1, lines [(Json.obj [("errors", .arr (errors.map errorJson))]).text], ""⟩

def listDialects : OutputFormat → Outcome
  | .text => .success (lines (Dialects.any.toList.map Dialect.name))
  | .json => .json (Json.strings (Dialects.any.toList.map Dialect.name))

def listFunctions (format : OutputFormat) (dialect : Option String) : Result := do
  let functions := ListedFunction.all (← dialect.mapM readDialect)
  match format with
  | .text => return .success (lines (functions.map ListedFunction.text))
  | .json => return .json (.arr (functions.map ListedFunction.toJson))

def showQueries (format : OutputFormat) (m : MultiQuery) : Outcome :=
  match format with
  | .text => .success (multiQueryText m)
  | .json => .json m.toJson

def showStatements (format : OutputFormat) (m : MultiStatement) : Result := do
  let sql ← m.text.mapError QueryError.message
  match format with
  | .text => return .success (lines [sql])
  | .json => return .json (.obj [("sql", .str sql), ("queries", m.toJson)])

/-! ## Commands -/

def Invocation.run (files : Files) (i : Invocation) : Result :=
  match i.command with
  | .dialects => .ok (listDialects i.format)
  | .functions dialect => listFunctions i.format dialect
  | .compile args => do
    match (← Input.load files args).queries with
    | .ok m => return showQueries i.format m
    | .error e => report i.format e
  | .translate args => do
    match (← Input.load files args).statements with
    | .ok m => showStatements i.format m
    | .error e => report i.format e

/-- What is said about the command line itself. -/
def usage : String := lines
  ["Compile formula queries and translate them into SQL.",
   "",
   "Commands:",
   "  dialects                              list the SQL dialects",
   "  functions [--dialect NAME]            list the functions that formulas can call",
   "  compile SPEC --registry PATH ...      compile a query and split it into sub-queries",
   "  translate SPEC --registry PATH ...    compile a query and print it as SQL",
   "",
   "Options of compile and translate:",
   "  --settings PATH                       settings, where they differ from the defaults",
   "  --dialect NAME                        the dialect, in place of that of the settings",
   "  --disable-optimizations               leave formulas as they are",
   "",
   "Options of all commands:",
   "  --format text|json                    how the output is written"]

/-- Runs a command line. -/
def run (files : Files) (args : List String) : Outcome :=
  match Invocation.read args with
  | .error .help => .success usage
  | .error .usage => ⟨2, "", usage⟩
  | .ok i =>
    match i.run files with
    | .ok outcome => outcome
    | .error message => .failure message

end FormulaSql.CommandLine

/-!
# Arguments of the command line

A command line names a command, which takes options and perhaps a file. Options are written
`--name value` or `--name=value`, and each is given at most once. `--format` may stand before the
command as well, and the one after the command wins. After `--` nothing is an option.
-/

namespace FormulaSql.CommandLine

inductive OutputFormat where
  | text
  | json
  deriving DecidableEq, Repr

def OutputFormat.ofName? : String → Option OutputFormat
  | "text" => some .text
  | "json" => some .json
  | _ => none

/-! ## Options -/

inductive Opt where
  | format
  | registry
  | settings
  | dialect
  | disableOptimizations
  deriving DecidableEq, Repr

namespace Opt

def all : List Opt := [format, registry, settings, dialect, disableOptimizations]

def name : Opt → String
  | format => "format"
  | registry => "registry"
  | settings => "settings"
  | dialect => "dialect"
  | disableOptimizations => "disable-optimizations"

def takesValue : Opt → Bool
  | disableOptimizations => false
  | _ => true

/-- The option can have this value. Files are never named by an empty text. -/
def accepts (o : Opt) (value : String) : Bool :=
  match o with
  | format => (OutputFormat.ofName? value).isSome
  | registry => !value.isEmpty
  | settings => !value.isEmpty
  | dialect => true
  | disableOptimizations => true

end Opt

/-! ## Commands -/

/-- What to compile, and how. -/
structure QueryArgs where
  spec : String
  registry : String
  settings : Option String
  dialect : Option String
  disableOptimizations : Bool
  deriving DecidableEq

inductive Command where
  | dialects
  | functions (dialect : Option String)
  | compile (args : QueryArgs)
  | translate (args : QueryArgs)
  deriving DecidableEq

inductive CommandName where
  | dialects
  | functions
  | compile
  | translate
  | help
  deriving DecidableEq, Repr

namespace CommandName

def ofName? : String → Option CommandName
  | "dialects" => some dialects
  | "functions" => some functions
  | "compile" => some compile
  | "translate" => some translate
  | "help" => some help
  | _ => none

def options : CommandName → List Opt
  | dialects => [.format]
  | functions => [.format, .dialect]
  | compile => Opt.all
  | translate => Opt.all
  | help => []

/-- How many arguments there are besides options. -/
def freeCount : CommandName → Nat
  | compile => 1
  | translate => 1
  | help => 1
  | _ => 0

/-- An argument that is no option can be this one: a file, or what help is asked about. -/
def acceptsFree (c : CommandName) (arg : String) : Bool :=
  match c with
  | help => (ofName? arg).isSome
  | _ => !arg.isEmpty

end CommandName

/-- A command with the format of its output. -/
structure Invocation where
  command : Command
  format : OutputFormat
  deriving DecidableEq

/-- Why no command is run. -/
inductive Refusal where
  | help
  | usage
  deriving DecidableEq, Repr

/-! ## Words -/

/-- What an argument looks like. -/
inductive Word where
  | free
  /-- The mark after which nothing is an option. -/
  | separator
  | short (letter : Char)
  | long (name : String) (value : Option String)
  deriving DecidableEq, Repr

/-- A name, and the value after the first equals sign. -/
def splitValue (cs : List Char) : String × Option String :=
  let name := cs.takeWhile (· != '=')
  match cs.drop name.length with
  | [] => (String.ofList name, none)
  | _ :: value => (String.ofList name, some (String.ofList value))

def Word.of (arg : String) : Word :=
  match arg.toList with
  | ['-', '-'] => .separator
  | '-' :: '-' :: cs =>
    let (name, value) := splitValue cs
    .long name value
  | '-' :: c :: _ => .short c
  | _ => .free

/-! ## Reading -/

/-- What has been read. -/
structure Reading where
  command : Option CommandName := none
  /-- Options before the command. -/
  outer : List (Opt × String) := []
  /-- Options after the command. -/
  inner : List (Opt × String) := []
  free : List String := []
  /-- The option whose value comes next. -/
  pending : Option Opt := none
  /-- Nothing is an option any more. -/
  literal : Bool := false

namespace Reading

/-- The options at this place. -/
def options (r : Reading) : List Opt :=
  match r.command with
  | some c => c.options
  | none => [.format]

/-- Adds an option with its value, unless it is there already. -/
def addValue (r : Reading) (o : Opt) (value : String) : Except Refusal Reading :=
  let given := if r.command.isSome then r.inner else r.outer
  if !o.accepts value || (given.lookup o).isSome then .error .usage
  else if r.command.isSome then .ok { r with inner := (o, value) :: r.inner, pending := none }
  else .ok { r with outer := (o, value) :: r.outer, pending := none }

def addOption (r : Reading) (name : String) (value : Option String) : Except Refusal Reading :=
  match r.options.find? fun o => o.name == name, value with
  | none, _ => .error .usage
  | some o, none => if o.takesValue then .ok { r with pending := some o } else r.addValue o ""
  | some o, some value => if o.takesValue then r.addValue o value else .error .usage

/-- Adds an argument that is no option: the name of the command, or an argument of it. -/
def addFree (r : Reading) (arg : String) : Except Refusal Reading :=
  match r.command with
  | none =>
    match CommandName.ofName? arg with
    | some c => if r.literal then .error .usage else .ok { r with command := some c }
    | none => .error .usage
  | some c =>
    if r.free.length < c.freeCount && c.acceptsFree arg then .ok { r with free := r.free ++ [arg] }
    else .error .usage

def step (r : Reading) (arg : String) : Except Refusal Reading :=
  if r.literal || r.command == some .help then r.addFree arg
  else
    match r.pending, Word.of arg with
    | some o, .free => r.addValue o arg
    | some _, _ => .error .usage
    | none, .free => r.addFree arg
    | none, .separator => .ok { r with literal := true }
    | none, .short letter => .error (if letter == 'h' then .help else .usage)
    | none, .long "help" none => .error .help
    | none, .long name value => r.addOption name value

/-- The value of an option, wherever it stands. -/
def value? (r : Reading) (o : Opt) : Option String := (r.inner.lookup o).or (r.outer.lookup o)

/-- The arguments of a command that compiles; the file and the registry must be there. -/
def queryArgs (r : Reading) : Except Refusal QueryArgs :=
  match r.free, r.value? .registry with
  | [spec], some registry =>
    .ok ⟨spec, registry, r.value? .settings, r.value? .dialect,
      (r.value? .disableOptimizations).isSome⟩
  | _, _ => .error .usage

def finish (r : Reading) : Except Refusal Invocation := do
  if r.pending.isSome then throw .usage
  let format := ((r.value? .format).bind OutputFormat.ofName?).getD .text
  match r.command with
  | none => throw .usage
  | some .help => throw .help
  | some .dialects => return ⟨.dialects, format⟩
  | some .functions => return ⟨.functions (r.value? .dialect), format⟩
  | some .compile => return ⟨.compile (← r.queryArgs), format⟩
  | some .translate => return ⟨.translate (← r.queryArgs), format⟩

end Reading

/-- Reads a command line. -/
def Invocation.read (args : List String) : Except Refusal Invocation := do
  (← args.foldlM Reading.step {}).finish

namespace QueryArgs

/-- The files that are read. -/
def paths (a : QueryArgs) : List String := [a.spec, a.registry] ++ a.settings.toList

end QueryArgs

namespace Invocation

/-- The files that a command reads. -/
def paths (i : Invocation) : List String :=
  match i.command with
  | .compile a => a.paths
  | .translate a => a.paths
  | _ => []

end Invocation

end FormulaSql.CommandLine

import Protobuf.Compile.Session

/-! The command line: which arguments there are, and what a run does.

An option with a value takes it from the rest of its own argument or from the next one, which must
not look like an option. Include paths may be given several times, other options once. Asking for
help or for the version ends the reading of arguments, and so does the first mistake. -/
namespace Protobuf.CommandLine

/-- Options that stand alone. -/
inductive Flag where
  | help
  | version
  | namespaces
  | filePerType
  | includeImports
  | verbose
  deriving DecidableEq, Repr, Inhabited

/-- Options with a value. -/
inductive Valued where
  | includePath
  | destination
  | fileNameStart
  | namespaceSeparator
  deriving DecidableEq, Repr, Inhabited

inductive Choice where
  | flag (flag : Flag)
  | valued (option : Valued)
  deriving DecidableEq, Repr, Inhabited

/-- Why arguments lead to no run. -/
inductive Stop where
  | help
  | version
  | misuse
  deriving DecidableEq, Repr, Inhabited

/-- What was given so far. -/
structure Arguments where
  files : List String
  includes : List String
  destination : Option String
  fileNameStart : Option String
  namespaceSeparator : Option String
  flags : List Flag
  deriving DecidableEq, Repr, Inhabited

namespace Arguments

def none : Arguments :=
  ⟨[], [], .none, .none, .none, []⟩

/-- A file to compile. -/
def addFile (a : Arguments) (path : String) : Except Stop Arguments :=
  if path.isEmpty then .error .misuse else .ok { a with files := a.files ++ [path] }

def addFiles (a : Arguments) : List String → Except Stop Arguments
  | [] => .ok a
  | path :: rest =>
    match a.addFile path with
    | .ok a' => a'.addFiles rest
    | .error stop => .error stop

def setFlag (a : Arguments) (flag : Flag) : Except Stop Arguments :=
  match flag with
  | .help => .error .help
  | .version => .error .version
  | flag => if flag ∈ a.flags then .error .misuse else .ok { a with flags := flag :: a.flags }

/-- Gives an option its value. Paths must not be empty. -/
def setValue (a : Arguments) (option : Valued) (value : String) : Except Stop Arguments :=
  match option with
  | .includePath =>
    if value.isEmpty then .error .misuse else .ok { a with includes := a.includes ++ [value] }
  | .destination =>
    if a.destination.isSome || value.isEmpty then .error .misuse
    else .ok { a with destination := some value }
  | .fileNameStart =>
    if a.fileNameStart.isSome then .error .misuse else .ok { a with fileNameStart := some value }
  | .namespaceSeparator =>
    if a.namespaceSeparator.isSome then .error .misuse
    else .ok { a with namespaceSeparator := some value }

/-- What must hold of all arguments together: there is a file to compile, and at most one of the
options that choose the separator. -/
def check (a : Arguments) : Except Stop Arguments :=
  if a.files.isEmpty || (a.namespaceSeparator.isSome && a.flags.contains .namespaces) then
    .error .misuse
  else .ok a

def settings (a : Arguments) : Settings :=
  let start := if a.flags.contains .namespaces then Settings.withNamespaces else {}
  { namespaceSeparator := a.namespaceSeparator.getD start.namespaceSeparator
    fileNameStart := a.fileNameStart.getD start.fileNameStart
    destination := a.destination.getD start.destination
    verbose := a.flags.contains .verbose
    filePerType := a.flags.contains .filePerType
    includeImports := a.flags.contains .includeImports }

/-- The directories to search; without any, the working directory. -/
def searched (a : Arguments) : List String :=
  if a.includes.isEmpty then ["."] else a.includes

end Arguments

/-! ### Reading arguments -/

def longChoice? (name : String) : Option Choice :=
  match name with
  | "help" => some (.flag .help)
  | "version" => some (.flag .version)
  | "namespaces" => some (.flag .namespaces)
  | "psr" => some (.flag .filePerType)
  | "include-imports" | "include_imports" => some (.flag .includeImports)
  | "verbose" => some (.flag .verbose)
  | "include" | "proto_path" => some (.valued .includePath)
  | "out" => some (.valued .destination)
  | "prefix" => some (.valued .fileNameStart)
  | "namespace-separator" => some (.valued .namespaceSeparator)
  | _ => none

def shortChoice? (letter : Char) : Option Choice :=
  match letter with
  | 'h' => some (.flag .help)
  | 'V' => some (.flag .version)
  | 'v' => some (.flag .verbose)
  | 'I' => some (.valued .includePath)
  | 'o' => some (.valued .destination)
  | _ => none

/-- Whether an argument looks like an option; a lone dash does not. -/
def looksLikeOption (argument : String) : Bool :=
  match argument.toList with
  | '-' :: _ :: _ => true
  | _ => false

/-- Where an argument leaves off: the arguments so far, and an option that still needs its value. -/
abbrev Read := Except Stop (Arguments × Option Valued)

/-- Reads the letters of a short argument. What follows an option with a value is its value, with or
without an equals sign. -/
def readShort (a : Arguments) : List Char → Read
  | [] => .ok (a, none)
  | letter :: rest =>
    match shortChoice? letter with
    | none => .error .misuse
    | some (.flag flag) =>
      match a.setFlag flag with
      | .ok a' => readShort a' rest
      | .error stop => .error stop
    | some (.valued option) =>
      match rest with
      | [] => .ok (a, some option)
      | '=' :: value => (a.setValue option (String.ofList value)).map (·, none)
      | value => (a.setValue option (String.ofList value)).map (·, none)

/-- Reads a long argument without its dashes. -/
def readLong (a : Arguments) (text : List Char) : Read :=
  let name := String.ofList (text.takeWhile (· != '='))
  match longChoice? name, text.dropWhile (· != '=') with
  | some (.flag flag), [] => (a.setFlag flag).map (·, none)
  | some (.valued option), [] => .ok (a, some option)
  | some (.valued option), _ :: value => (a.setValue option (String.ofList value)).map (·, none)
  | _, _ => .error .misuse

/-- Reads an argument that may be an option. -/
def readOne (a : Arguments) (argument : String) : Read :=
  if looksLikeOption argument then
    match argument.toList with
    | '-' :: '-' :: text => readLong a text
    | _ :: text => readShort a text
    | [] => .error .misuse
  else (a.addFile argument).map (·, none)

/-- Reads arguments in order. Behind two dashes there are only files. -/
def readAll (a : Arguments) : List String → Except Stop Arguments
  | [] => .ok a
  | argument :: rest =>
    if argument = "--" then a.addFiles rest
    else
      match readOne a argument with
      | .error stop => .error stop
      | .ok (a', none) => readAll a' rest
      | .ok (a', some option) =>
        match rest with
        | [] => .error .misuse
        | value :: others =>
          if looksLikeOption value then .error .misuse
          else
            match a'.setValue option value with
            | .ok a'' => readAll a'' others
            | .error stop => .error stop

def parse (arguments : List String) : Except Stop Arguments :=
  match readAll .none arguments with
  | .ok a => a.check
  | .error stop => .error stop

/-! ### Running -/

/-- What a run leaves behind. -/
structure Result where
  exit : Nat
  disk : Disk
  error : Option CompileError

/-- Compiles the files of these arguments and writes the code. -/
def compile (disk : Disk) (a : Arguments) : Result :=
  let source := FileSource.chain (a.searched.map (FileSource.directory disk))
  match (Session.start source a.settings).addFiles a.files with
  | (_, some e) => ⟨1, disk, some e⟩
  | (session, none) =>
    match session.write (.directory a.settings.destination) disk with
    | (disk', some e) => ⟨1, disk', some e⟩
    | (disk', none) => ⟨0, disk', none⟩

/-- The exit status for arguments that lead to no run. -/
def Stop.exit : Stop → Nat
  | help | version => 0
  | misuse => 2

def run (disk : Disk) (arguments : List String) : Result :=
  match parse arguments with
  | .ok a => compile disk a
  | .error stop => ⟨stop.exit, disk, none⟩

end Protobuf.CommandLine

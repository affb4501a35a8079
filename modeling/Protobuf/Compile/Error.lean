import Protobuf.Files.Disk
import Protobuf.Schema.Flaw
import Protobuf.Source.Fault
import Protobuf.Text.Escape

/-! Why a compilation fails. -/
namespace Protobuf

inductive CompileError where
  | fileNotFound (name : String)
  /-- An import at `span` of a file leads nowhere. -/
  | importNotFound (name file : String) (position : Position) (span : Span)
  | fileNotIncluded (path : String)
  /-- The name of a path leads to another file. -/
  | fileShadowed (name path shadow : String)
  | openFile (name path : String) (fault : DiskFault)
  | fileTooLarge (name : String)
  | invalidUtf8 (name : String)
  /-- Each file of the chain imports the next, and the last one is in it twice. -/
  | circularImport (chain : List String)
  /-- The chain of imports does not end. -/
  | endlessImport (chain : List String)
  | source (error : SourceError)
  | schema (error : SchemaError)
  /-- Two files have their code written to one path. -/
  | artifactConflict (path first second : String)
  | writeFile (path : String) (fault : DiskFault)
  /-- A failure that a source or sink of files describes itself. -/
  | custom (text : String)
  | customDisk (text : String)
  deriving Inhabited

namespace CompileError

def arrows (chain : List String) : String :=
  " -> ".intercalate chain

def message : CompileError → String
  | fileNotFound name => "file '" ++ name ++ "' not found"
  | importNotFound name _ _ _ => "import '" ++ name ++ "' not found"
  | fileNotIncluded path => "file '" ++ path ++ "' is not in any include path"
  | fileShadowed _ path shadow =>
    "path '" ++ path ++ "' is shadowed by '" ++ shadow ++ "' in the include paths"
  | openFile _ path _ => "error opening file '" ++ path ++ "'"
  | fileTooLarge name => "file '" ++ name ++ "' is too large"
  | invalidUtf8 name => "file '" ++ name ++ "' is not valid utf-8"
  | circularImport chain => "import cycle detected: " ++ arrows chain
  | endlessImport chain => "imports do not end: " ++ arrows chain
  | source e => e.first.message
  | schema e => e.first.message
  | artifactConflict path first second =>
    "files '" ++ first ++ "' and '" ++ second ++ "' would both be written to '" ++ path ++ "'"
  | writeFile path _ => "error writing file '" ++ path ++ "'"
  | custom text => text
  | customDisk text => text

def help : CompileError → Option String
  | fileShadowed _ path shadow =>
    some ("either pass '" ++ shadow ++ "' as the input file, or re-order the include paths so " ++
      "that '" ++ path ++ "' comes first")
  | fileTooLarge _ => some "the maximum file length is 2,147,483,647 bytes"
  | source e => e.first.help
  | schema e => e.first.help
  | artifactConflict _ _ _ =>
    some "give the files different packages or file names, or change the output layout"
  | _ => none

def labels : CompileError → List Label
  | importNotFound _ _ _ span => [⟨"imported here", span⟩]
  | source e => e.first.labels
  | schema e => e.first.labels
  | _ => []

def diagnostic (e : CompileError) : Diagnostic :=
  ⟨e.message, e.help, e.labels⟩

/-- What else is wrong with the same file. -/
def related : CompileError → List Diagnostic
  | source e => e.related.map Fault.diagnostic
  | schema e => e.related.map Flaw.diagnostic
  | _ => []

/-- The file that the error is about; for a cycle, the one with the last import. -/
def file? : CompileError → Option String
  | source e => some e.file
  | schema e => some e.file
  | importNotFound _ file _ _ => some file
  | fileNotFound name | fileShadowed name _ _ | openFile name _ _ | fileTooLarge name
  | invalidUtf8 name => some name
  | circularImport chain | endlessImport chain => some (chain.dropLast.getLastD "")
  | artifactConflict _ _ second => some second
  | fileNotIncluded _ | writeFile _ _ | custom _ | customDisk _ => none

/-- The error on one line, with its place or its cause. -/
def summary (e : CompileError) : String :=
  match e with
  | source r => r.summary Fault.message
  | schema r => r.summary Flaw.message
  | importNotFound _ file position _ =>
    file ++ ":" ++ position.line.repr ++ ":" ++ position.column.repr ++ ": " ++ e.message
  | openFile _ _ fault | writeFile _ fault => e.message ++ ": " ++ fault.message
  | custom text => Escape.quoted text
  | customDisk text => "Custom \x7b kind: Other, error: " ++ Escape.quoted text ++ " \x7d"
  | _ => e.message

/-! ### Kinds of errors -/

/-- Whether a file or import could not be found. -/
def isNotFound : CompileError → Bool
  | fileNotFound _ | importNotFound _ _ _ _ | fileNotIncluded _ => true
  | _ => false

/-- Whether the text of a file is at fault. -/
def isSource : CompileError → Bool
  | source _ | fileTooLarge _ | invalidUtf8 _ => true
  | _ => false

def isSchema : CompileError → Bool
  | schema _ => true
  | _ => false

def isCircular : CompileError → Bool
  | circularImport _ => true
  | _ => false

/-- Whether reading or writing failed. -/
def isDisk : CompileError → Bool
  | openFile _ _ _ | writeFile _ _ | customDisk _ => true
  | _ => false

end CompileError

end Protobuf

import Protobuf.CommandLine

/-! The program.

It reads the files that the arguments can lead to, compiles them as they were read, and then writes
the generated files. -/
namespace Protobuf.Main
open CommandLine

/-- Takes a file into a disk, if it is there, and gives its content. -/
def fetchFile (disk : Disk) (path : String) : IO (Disk × Option Bytes) := do
  try
    let content := (← IO.FS.readBinFile path).toList
    return ((disk.save path content).1, some content)
  catch
    | .noFileOrDirectory .. => return (disk, none)
    | _ => return ((disk.makeDirectories path).1, none)

/-- The names that a file imports. -/
def importsOf (name : String) (content : Bytes) : List String :=
  match (Utf8.decode? content).map (SourceFile.ofText name none) with
  | some (.ok f) => f.imports
  | _ => []

/-- Takes the files with these names, and what they import, into a disk. -/
partial def fetch (directories : List String) (disk : Disk) (seen : List String) :
    List String → IO Disk
  | [] => return disk
  | name :: rest => do
    if seen.contains name then fetch directories disk seen rest
    else
      let mut disk := disk
      let mut more := []
      for directory in directories do
        let (disk', content) ← fetchFile disk (Path.join directory name)
        disk := disk'
        more := more ++ importsOf name (content.getD [])
      fetch directories disk (name :: seen) (rest ++ more)

/-- A disk with nothing but the working directory. -/
def emptyDisk : IO Disk := do
  let current := (Disk.names (← IO.currentDir).toString)
  let around := (List.range current.length).map fun n => (current.take (n + 1), DiskEntry.directory)
  return ⟨around, current⟩

/-- The names of the files at these paths. -/
def rootNames (a : Arguments) (disk : Disk) : List String :=
  let source := FileSource.chain (a.searched.map (FileSource.directory disk))
  a.files.filterMap fun path => (Loading.nameFor source path).map (·.1)

def writeChange (place : Location) (content : Bytes) : IO Unit := do
  IO.FS.createDirAll ("/" ++ "/".intercalate place.dropLast)
  IO.FS.writeBinFile ("/" ++ "/".intercalate place) ⟨content.toArray⟩

def report (e : CompileError) : IO Unit := do
  IO.eprintln ("Error: " ++ e.summary)
  for d in e.related do
    IO.eprintln ("  " ++ d.message)
  if let some help := e.help then
    IO.eprintln ("  help: " ++ help)

def usage : String :=
  "Usage: protogen [OPTIONS] <PROTO_FILES>...\n\n" ++
  "  -I, --include <PATH>               a directory in which to search for imports\n" ++
  "  -o, --out <DIR>                    the directory to write generated files to\n" ++
  "      --prefix <PREFIX>              the start of each generated file name\n" ++
  "      --namespace-separator <SEP>    joins package segments to a namespace\n" ++
  "      --namespaces                   separate namespace segments with '\\'\n" ++
  "      --psr                          write one file per top-level type\n" ++
  "      --include-imports              also generate code for imported files\n" ++
  "  -v, --verbose                      log each generated file\n" ++
  "  -h, --help                         print help\n" ++
  "  -V, --version                      print version"

/-- Compiles the files of these arguments, and gives the exit status. -/
def compileFiles (a : Arguments) : IO Nat := do
  let empty ← emptyDisk
  let disk ← fetch a.searched empty [] (rootNames a empty)
  let result := compile disk a
  for (place, content) in disk.changes result.disk do
    writeChange place content
    if a.settings.verbose then
      IO.eprintln ("wrote " ++ "/".intercalate place)
  if let some e := result.error then report e
  return result.exit

def runWith (arguments : List String) : IO Nat := do
  match parse arguments with
  | .ok a => compileFiles a
  | .error .help =>
    IO.println usage
    return Stop.help.exit
  | .error .version =>
    IO.println "protogen 0.1.0"
    return Stop.version.exit
  | .error .misuse =>
    IO.eprintln usage
    return Stop.misuse.exit

end Protobuf.Main

def main (arguments : List String) : IO UInt32 := do
  try
    return UInt32.ofNat (← Protobuf.Main.runWith arguments)
  catch e =>
    IO.eprintln ("Error: " ++ e.toString)
    return 1

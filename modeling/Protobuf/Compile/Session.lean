import Protobuf.Compile.Artifact
import Protobuf.Compile.Loading
import Protobuf.Schema.Linking

/-! A compilation: files are added one after the other, linked, and turned into code.

Artifacts are written to a sink one by one, up to the first that it refuses. Nothing is written if
the files do not compile. -/
namespace Protobuf

structure Session where
  source : FileSource
  settings : Settings
  loaded : Loaded

namespace Session

def start (source : FileSource) (settings : Settings) : Session :=
  ⟨source, settings, .empty⟩

/-- The loaded files, each after those it imports. -/
def files (s : Session) : List LoadedFile :=
  s.loaded.files

/-- Adds the file at a path and what it imports. -/
def addFile (s : Session) (path : String) : Session × Option CompileError :=
  let outcome := Loading.addFile s.source s.loaded path
  ({ s with loaded := outcome.loaded }, outcome.error)

/-- Adds the files at several paths, up to the first failure. -/
def addFiles (s : Session) (paths : List String) : Session × Option CompileError :=
  let outcome := Loading.addFiles s.source s.loaded paths
  ({ s with loaded := outcome.loaded }, outcome.error)

def schema (s : Session) : Except CompileError Schema :=
  match Linking.link s.files with
  | .ok schema => .ok schema
  | .error e => .error (.schema e)

def compile (s : Session) : Except CompileError (List Artifact) :=
  match s.schema with
  | .ok schema => Artifact.build schema s.settings
  | .error e => .error e

end Session

/-! ### Sinks -/

/-- Takes an artifact into a state, or fails; the state counts in both cases. -/
abbrev Sink (σ : Type) := σ → Artifact → σ × Option CompileError

namespace Sink
variable {σ : Type}

/-- Writes artifacts in order, up to the first failure. -/
def writeAll (sink : Sink σ) (state : σ) : List Artifact → σ × Option CompileError
  | [] => (state, none)
  | a :: rest =>
    match sink state a with
    | (state', some e) => (state', some e)
    | (state', none) => sink.writeAll state' rest

/-- Keeps artifacts in memory. -/
def memory : Sink (List Artifact) := fun kept a =>
  (kept ++ [a], none)

/-- Keeps so many artifacts and then fails. -/
def limited (count : Nat) (error : CompileError) : Sink (List Artifact) := fun kept a =>
  if kept.length < count then (kept ++ [a], none) else (kept, some error)

/-- Writes artifacts to files under a directory, and makes the directories they need. -/
def directory (destination : String) : Sink Disk := fun disk a =>
  let path := Path.join destination a.path
  match disk.save path (Utf8.encode a.content) with
  | (disk', none) => (disk', none)
  | (disk', some fault) => (disk', some (.writeFile path fault))

end Sink

/-- Compiles and writes what comes out of it. -/
def Session.write (s : Session) (sink : Sink σ) (state : σ) : σ × Option CompileError :=
  match s.compile with
  | .ok artifacts => sink.writeAll state artifacts
  | .error e => (state, some e)

end Protobuf

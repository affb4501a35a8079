import Protobuf.Proofs.Compile.LoadOrder
import Protobuf.Proofs.Files.PathLaws

/-! Files that are asked for by path, among include directories.

A path gets its name from the first directory that it lies in, and the name is opened in the first
directory that has it. These need not be the same, and the name may be loaded already because
another file imports it. A call succeeds only if the file under the name is at the path that was
asked for, and with one directory there is nothing else it could find (`addFile_unshadowed`).

The index keeps every file under a name that the source opens it by (`Loaded.Consistent`), and a
file that is opened in a directory knows the path it was opened at. So only the check of the call
itself has to be looked at, once for a new name and once for a known one. -/
namespace Protobuf

/-- The error of a path whose name leads to another file. -/
def CompileError.IsShadowing (e : CompileError) : Prop :=
  ∃ name path shadow, e = .fileShadowed name path shadow

/-! ### Include directories -/

namespace FileSource
variable {disk : Disk} {includes : List String} {directory name path : String} {f : SourceFile}

/-- A file on disk knows where it was opened. -/
theorem path_of_openAt (h : openAt disk name path = .ok f) : f.path = some path := by
  obtain ⟨_, text, _, _, hparsed⟩ := openAt_eq_ok h
  obtain ⟨decl, _, rfl⟩ := parsed_eq_ok_iff.mp hparsed
  rfl

/-- A file is opened in one of the directories. -/
theorem exists_openAt_of_load (h : (includePath disk includes).load name = .ok f) :
    ∃ directory ∈ includes, openAt disk name (Path.join directory name) = .ok f := by
  obtain ⟨s, hs, hload⟩ := loadFirst_eq_ok h
  obtain ⟨directory, hdirectory, rfl⟩ := List.mem_map.mp hs
  exact ⟨directory, hdirectory, hload⟩

theorem not_isShadowing_of_load {e : CompileError}
    (h : (includePath disk includes).load name = .error e) : ¬ e.IsShadowing := by
  obtain rfl | ⟨s, hs, hload⟩ := loadFirst_eq_error h
  · nofun
  · obtain ⟨directory, _, rfl⟩ := List.mem_map.mp hs
    obtain rfl | ⟨fault, rfl⟩ | rfl | rfl | ⟨cause, rfl⟩ := openAt_eq_error hload
    all_goals nofun

/-- The name of a path in a directory leads back to the path. -/
theorem steps_of_nameOf (h : (FileSource.directory disk directory).nameOf path = some name) :
    Path.steps (Path.join directory name) = Path.steps path := by
  simp only [FileSource.directory] at h
  split at h
  · rename_i spelled hspelled
    split at h
    · cases h
    · rename_i hsome
      cases h
      obtain ⟨rest, hrest, hname⟩ := Option.bind_eq_some_iff.mp hspelled
      exact Path.steps_join_nameOf hrest hname fun hempty => hsome (by rw [hempty]; rfl)
  · cases h

theorem nameOf_includePath_singleton (disk : Disk) (directory path : String) :
    (includePath disk [directory]).nameOf path =
      (FileSource.directory disk directory).nameOf path :=
  List.findSome?_singleton

end FileSource

/-! ### The check of a call -/

namespace Loading
variable {s : FileSource} {l : Loaded} {path name : String}

theorem checkShadow_eq_none {f : SourceFile} {opened : String} (hf : f.path = some opened) :
    checkShadow f name path = none ↔ Path.steps opened = Path.steps path := by
  rw [checkShadow, hf, ← Path.equivalent_iff]
  dsimp only
  split <;> simp [*]

theorem nameFor_of_nameOf (h : s.nameOf path = some name) : nameFor s path = some (name, true) := by
  rw [nameFor, h]

theorem nameOf_of_nameFor (h : nameFor s path = some (name, true)) : s.nameOf path = some name := by
  rw [nameFor] at h
  split at h
  · rename_i own hown
    cases h
    exact hown
  · obtain ⟨_, _, hpair⟩ := Option.map_eq_some_iff.mp h
    cases hpair

theorem addFile_of_new {known : Bool} (hname : nameFor s path = some (name, known))
    (hplace : l.indexOf? name = none) : addFile s l path = addNew s l path name known := by
  simp only [addFile, hname, hplace]

theorem error_addFile_of_loaded {known : Bool} {place : Nat} {f : LoadedFile}
    (hname : nameFor s path = some (name, known)) (hplace : l.indexOf? name = some place)
    (hf : l.files[place]? = some f) :
    (addFile s l path).error = if known then checkShadow f.source name path else none := by
  simp only [addFile, hname, hplace, hf]
  cases if known then checkShadow f.source name path else none with
  | none => rfl
  | some e => rfl

theorem not_isShadowing_atImport {f : SourceFile} {i : Decl.Import} {e : CompileError}
    (h : ¬ e.IsShadowing) : ¬ (atImport f i e).IsShadowing := by
  unfold atImport
  split
  · nofun
  · exact h

/-- Imports fail with what the source says, or by their shape. -/
theorem Blames.not_isShadowing
    (hs : ∀ {name : String} {e : CompileError}, s.load name = .error e → ¬ e.IsShadowing)
    {depth : Nat} {chain : List String} {e : CompileError} (h : Blames s depth chain name e) :
    ¬ e.IsShadowing := by
  induction h with
  | endless => nofun
  | circular _ => nofun
  | unread _ hload => exact hs hload
  | inside _ _ _ _ ih => exact not_isShadowing_atImport ih

/-- What the source has under a name is checked, whether it is opened now or was before. -/
theorem error_addFile_of_checkShadow (hl : l.Consistent s) {f : SourceFile} {e : CompileError}
    (hname : s.nameOf path = some name) (hload : s.load name = .ok f)
    (hcheck : checkShadow f name path = some e) : (addFile s l path).error = some e := by
  have hname := nameFor_of_nameOf hname
  cases hplace : l.indexOf? name with
  | none =>
    rw [addFile_of_new hname hplace]
    simp [addNew, hload, hcheck]
  | some place =>
    obtain ⟨g, hg, hserved⟩ := hl.served hplace
    rw [hload] at hserved
    cases hserved
    rw [error_addFile_of_loaded hname hplace hg, if_pos rfl, hcheck]

/-- A call that succeeds has loaded the name of its path. -/
theorem has_of_addFile (hname : s.nameOf path = some name) (h : (addFile s l path).error = none) :
    (addFile s l path).loaded.has name = true := by
  have hname := nameFor_of_nameOf hname
  cases hplace : l.indexOf? name with
  | none =>
    rw [addFile_of_new hname hplace] at h ⊢
    exact (addNew_loads path true hplace).complete h name (List.mem_singleton_self name)
  | some place =>
    have hgrown := (addFile_advances s l path).2
    exact hgrown.has (Loaded.has_iff.mpr ⟨place, hplace⟩)

/-- A call fails by shadowing only in that check. -/
theorem not_isShadowing_of_addFile
    (hs : ∀ {name : String} {e : CompileError}, s.load name = .error e → ¬ e.IsShadowing)
    (hl : l.Consistent s)
    (hcheck : ∀ {name : String} {f : SourceFile}, s.nameOf path = some name →
      s.load name = .ok f → checkShadow f name path = none)
    {e : CompileError} (h : (addFile s l path).error = some e) : ¬ e.IsShadowing := by
  cases hname : nameFor s path with
  | none =>
    rw [addFile, hname] at h
    cases h
    rintro ⟨_, _, _, hsame⟩
    cases hsame
  | some named =>
    obtain ⟨name, known⟩ := named
    cases hplace : l.indexOf? name with
    | none =>
      rw [addFile_of_new hname hplace] at h
      cases (addNew_loads path known hplace).blamed e h with
      | unread hload =>
        split
        · rintro ⟨_, _, _, hsame⟩
          cases hsame
        · exact hs hload
      | shadowed hknown hload hshadow =>
        rw [hcheck (nameOf_of_nameFor (hknown ▸ hname)) hload] at hshadow
        cases hshadow
      | inside _ _ hblames => exact not_isShadowing_atImport (hblames.not_isShadowing hs)
    | some place =>
      obtain ⟨f, hf, hload⟩ := hl.served hplace
      rw [error_addFile_of_loaded hname hplace hf] at h
      cases known with
      | false => cases h
      | true =>
        rw [if_pos rfl, hcheck (nameOf_of_nameFor hname) hload] at h
        cases h

end Loading

/-! ### Sessions -/

namespace Session

/-- **A call never takes another file than the one at its path.** Whatever was called before, and
with any disk and include directories: if a call succeeds and its path has a name, then under this
name there is a file of one of the directories, whose path has the same steps as the one that was
asked for. With one directory the name of a path always leads back to the path, and no call fails
because another file is in the way. -/
theorem addFile_unshadowed (disk : Disk) (includes : List String) (settings : Settings)
    (calls : List String) (path : String) :
    let source := FileSource.includePath disk includes
    let s := (start source settings).afterCalls calls
    (∀ name, source.nameOf path = some name → (s.addFile path).2 = none →
      ∃ place f directory, (s.addFile path).1.loaded.indexOf? name = some place ∧
        (s.addFile path).1.files[place]? = some f ∧ directory ∈ includes ∧
        FileSource.openAt disk name (Path.join directory name) = .ok f.source ∧
        f.source.path = some (Path.join directory name) ∧
        Path.steps (Path.join directory name) = Path.steps path) ∧
    ∀ directory, includes = [directory] →
      (∀ name, source.nameOf path = some name →
        Path.steps (Path.join directory name) = Path.steps path) ∧
      ∀ e, (s.addFile path).2 = some e → ¬ e.IsShadowing := by
  intro source s
  have hl : s.loaded.Consistent source :=
    consistent_afterCalls (s := start source settings) (.empty source) calls
  have hsource : s.source = source := source_afterCalls (start source settings) calls
  have hs : ∀ {name : String} {e : CompileError}, source.load name = .error e →
      ¬ e.IsShadowing := FileSource.not_isShadowing_of_load
  rw [addFile, hsource]
  refine ⟨fun name hname hdone => ?_, fun directory hone => ?_⟩
  · have hafter := (Loading.addFile_advances source s.loaded path).1 hl
    obtain ⟨place, hplace⟩ := Loaded.has_iff.mp (Loading.has_of_addFile hname hdone)
    obtain ⟨f, hf, hload⟩ := hafter.served hplace
    obtain ⟨directory, hmem, hopen⟩ := FileSource.exists_openAt_of_load hload
    have hpath := FileSource.path_of_openAt hopen
    have hcheck : Loading.checkShadow f.source name path = none := by
      cases hshadow : Loading.checkShadow f.source name path with
      | none => rfl
      | some e =>
        have herror := Loading.error_addFile_of_checkShadow hl hname hload hshadow
        cases hdone.symm.trans herror
    exact ⟨place, f, directory, hplace, hf, hmem, hopen, hpath,
      (Loading.checkShadow_eq_none hpath).mp hcheck⟩
  · have hback : ∀ name, source.nameOf path = some name →
        Path.steps (Path.join directory name) = Path.steps path := by
      intro name hname
      have hsingle : source = .includePath disk [directory] :=
        congrArg (FileSource.includePath disk) hone
      rw [hsingle, FileSource.nameOf_includePath_singleton] at hname
      exact FileSource.steps_of_nameOf hname
    refine ⟨hback, fun e he => Loading.not_isShadowing_of_addFile hs hl ?_ he⟩
    intro name f hname hload
    obtain ⟨opened, hmem, hopen⟩ := FileSource.exists_openAt_of_load hload
    rw [hone, List.mem_singleton] at hmem
    rw [Loading.checkShadow_eq_none (FileSource.path_of_openAt hopen), hmem]
    exact hback name hname

/-- A file that imports one from another directory. -/
def twoDirectories : Disk :=
  ⟨[(["app"], .directory), (["app", "a.proto"], .file (Utf8.encode "import \"b.proto\";")),
    (["lib"], .directory), (["lib", "b.proto"], .file [])], []⟩

/-- The second call finds the file that the first one has loaded as an import. It asks for it by
another text. With one directory there is no other file of that name. -/
theorem addFile_unshadowed_twoDirectories :
    let source := FileSource.includePath twoDirectories ["app", "lib"]
    let s := (start source {}).afterCalls ["app/a.proto"]
    (source.nameOf "./lib//b.proto" = some "b.proto" ∧
      (s.addFile "./lib//b.proto").2 = none ∧
      ∃ place f directory, (s.addFile "./lib//b.proto").1.loaded.indexOf? "b.proto" = some place ∧
        (s.addFile "./lib//b.proto").1.files[place]? = some f ∧ directory ∈ ["app", "lib"] ∧
        f.source.path = some (Path.join directory "b.proto") ∧
        Path.steps (Path.join directory "b.proto") = Path.steps "./lib//b.proto") ∧
    let source := FileSource.includePath twoDirectories ["lib"]
    source.nameOf "./lib//b.proto" = some "b.proto" ∧
      Path.steps (Path.join "lib" "b.proto") = Path.steps "./lib//b.proto" ∧
      ∀ e, ((start source {}).addFile "./lib//b.proto").2 = some e → ¬ e.IsShadowing := by
  intro source s
  have hname : source.nameOf "./lib//b.proto" = some "b.proto" := by decide +kernel
  have hdone : (s.addFile "./lib//b.proto").2 = none :=
    Option.isNone_iff_eq_none.mp (by decide +kernel)
  have hlib : (FileSource.includePath twoDirectories ["lib"]).nameOf "./lib//b.proto" =
      some "b.proto" := by decide +kernel
  obtain ⟨place, f, directory, hplace, hf, hmem, _, hpath, hsteps⟩ :=
    (addFile_unshadowed twoDirectories ["app", "lib"] {} ["app/a.proto"] "./lib//b.proto").1
      "b.proto" hname hdone
  obtain ⟨hback, hnever⟩ :=
    (addFile_unshadowed twoDirectories ["lib"] {} [] "./lib//b.proto").2 "lib" rfl
  exact ⟨⟨hname, hdone, place, f, directory, hplace, hf, hmem, hpath, hsteps⟩, hlib,
    hback "b.proto" hlib, hnever⟩

end Session

end Protobuf

import Protobuf.Proofs.Compile.Imports
import Protobuf.Proofs.Record.Reading
import Protobuf.Proofs.Source.Positions

/-! What the files of a source import.

A file that a source opens was parsed from a text that it holds, in memory or on disk. An import
statement takes up some of that text, so a text has at least as many bytes as import statements, and
the files of a source import no more names than there are bytes (`Bounded`). This does not depend on
how many names lead to one file on disk. Sources that are chained have the names of all of them. -/
namespace Protobuf.FileSource

variable {s : FileSource} {name : String} {f : SourceFile} {e : CompileError}

/-- The errors of a source are about files, and not about how they are imported. -/
def Plain (s : FileSource) : Prop :=
  ∀ {name : String} {e : CompileError}, s.load name = .error e →
    ∀ chain, e ≠ .circularImport chain ∧ e ≠ .endlessImport chain

/-- The files of the source import no more names than it says. -/
def Bounded (s : FileSource) : Prop :=
  ∃ names : List String, names.length ≤ s.extent ∧ ∀ {a b : String}, s.Imports a b → b ∈ names

/-! ### Texts -/

theorem parsed_eq_ok_iff {at? : Option String} {text : String} :
    parsed name at? text = .ok f ↔
      ∃ decl, Grammar.parse name text = .ok decl ∧ f = ⟨name, at?, text, decl⟩ := by
  rw [parsed, SourceFile.ofText]
  cases Grammar.parse name text with
  | error e => exact ⟨nofun, nofun⟩
  | ok decl =>
    constructor
    · intro h
      cases h
      exact ⟨decl, rfl, rfl⟩
    · rintro ⟨_, hdecl, rfl⟩
      cases hdecl
      rfl

theorem parsed_eq_error {at? : Option String} {text : String}
    (h : parsed name at? text = .error e) : ∃ cause, e = .source cause := by
  rw [parsed] at h
  split at h
  · cases h
  · cases h
    exact ⟨_, rfl⟩

/-- Under some name, the text has an import statement for the file `b`. -/
def TextImports (text b : String) : Prop :=
  ∃ name decl, Grammar.parse name text = .ok decl ∧ b ∈ decl.imports.map (·.value)

/-- Import statements follow one another in the text, and each takes up some of it. -/
theorem length_imports_le {text : String} {decl : Decl.File}
    (h : Grammar.parse name text = .ok decl) : decl.imports.length ≤ text.utf8ByteSize := by
  obtain ⟨_, c, hrun, _⟩ := Grammar.file_of_parse h
  obtain ⟨stop, hlaid, hfaithful⟩ :=
    Grammar.places_file (.start text) 0 decl (Parser.words_laid text) (by rw [hrun])
  have himports := hfaithful.importParts.add_length_le
  rw [List.length_map, Nat.zero_add] at himports
  exact himports.trans hlaid.ascending.start_le

theorem exists_textImports (text : String) :
    ∃ names : List String, names.length ≤ text.utf8ByteSize ∧
      ∀ b, TextImports text b → b ∈ names := by
  by_cases h : ∃ name decl, Grammar.parse name text = .ok decl
  · obtain ⟨name, decl, hdecl⟩ := h
    refine ⟨decl.imports.map (·.value), ?_, ?_⟩
    · rw [List.length_map]
      exact length_imports_le hdecl
    · rintro b ⟨other, own, hown, hb⟩
      -- What a text declares does not depend on its name.
      obtain ⟨_, _, hrun, _⟩ := Grammar.file_of_parse hdecl
      obtain ⟨_, _, hagain, _⟩ := Grammar.file_of_parse hown
      rw [hrun] at hagain
      cases hagain
      exact hb
  · exact ⟨[], Nat.zero_le _, fun b ⟨name, decl, hdecl, _⟩ => absurd ⟨name, decl, hdecl⟩ h⟩

/-- The names that several entries import, if each imports no more than its size. -/
theorem exists_union {ε : Type} {size : ε → Nat} {imports : ε → String → Prop} (entries : List ε)
    (h : ∀ entry ∈ entries, ∃ names : List String, names.length ≤ size entry ∧
      ∀ b, imports entry b → b ∈ names) :
    ∃ names : List String, names.length ≤ total size entries ∧
      ∀ entry ∈ entries, ∀ b, imports entry b → b ∈ names := by
  induction entries with
  | nil => exact ⟨[], Nat.le_refl 0, nofun⟩
  | cons first rest ih =>
    obtain ⟨own, hown, hfirst⟩ := h first List.mem_cons_self
    obtain ⟨others, hothers, hrest⟩ := ih fun entry hentry =>
      h entry (List.mem_cons_of_mem first hentry)
    refine ⟨own ++ others, ?_, fun entry hentry b hb => ?_⟩
    · rw [List.length_append, total, List.foldr_cons]
      exact Nat.add_le_add hown hothers
    · rcases List.mem_cons.mp hentry with rfl | hentry
      · exact List.mem_append_left others (hfirst b hb)
      · exact List.mem_append_right own (hrest entry hentry b hb)

/-! ### Files in memory -/

theorem memory_plain (held : List (String × Held)) : (memory held).Plain := by
  intro name e h chain
  simp only [memory] at h
  split at h
  · obtain ⟨cause, rfl⟩ := parsed_eq_error h
    exact ⟨nofun, nofun⟩
  all_goals
    cases h
    exact ⟨nofun, nofun⟩

theorem memory_load_eq_ok {held : List (String × Held)} (h : (memory held).load name = .ok f) :
    ∃ content, (name, .text content) ∈ held ∧ parsed name none content = .ok f := by
  simp only [memory] at h
  split at h
  · rename_i content hlookup
    obtain ⟨front, back, rfl, _⟩ := List.lookup_eq_some_iff.mp hlookup
    exact ⟨content, List.mem_append_right front List.mem_cons_self, h⟩
  all_goals cases h

/-- What is held under a name has an import statement for the file `b`. -/
def Held.Imports : Held → String → Prop
  | text content, b => TextImports content b
  | _, _ => False

theorem exists_heldImports (value : Held) :
    ∃ names : List String, names.length ≤ value.size ∧ ∀ b, value.Imports b → b ∈ names := by
  cases value with
  | text content => exact exists_textImports content
  | _ => exact ⟨[], Nat.le_refl 0, nofun⟩

theorem memory_bounded (held : List (String × Held)) : (memory held).Bounded := by
  obtain ⟨names, hlength, hnames⟩ := exists_union held fun entry _ => exists_heldImports entry.2
  refine ⟨names, hlength, fun {a b} himports => ?_⟩
  obtain ⟨f, hload, hb⟩ := himports
  obtain ⟨content, hmem, hparsed⟩ := memory_load_eq_ok hload
  obtain ⟨decl, hdecl, rfl⟩ := parsed_eq_ok_iff.mp hparsed
  exact hnames _ hmem b ⟨a, decl, hdecl, hb⟩

/-! ### Files in a directory -/

variable {disk : Disk} {path : String}

/-- What opening a file can give: the file that the bytes at the path are. -/
theorem openAt_eq_ok (h : openAt disk name path = .ok f) : ∃ bytes text,
    disk.read path = .ok bytes ∧ Utf8.decode? bytes = some text ∧
      parsed name (some path) text = .ok f := by
  rw [openAt] at h
  split at h
  · cases h
  · cases h
  · rename_i bytes hread
    split at h
    · cases h
    split at h
    · rename_i text htext
      exact ⟨bytes, text, hread, htext, h⟩
    · cases h

theorem openAt_eq_error (h : openAt disk name path = .error e) :
    e = .fileNotFound name ∨ (∃ fault, e = .openFile name path fault) ∨ e = .fileTooLarge name ∨
      e = .invalidUtf8 name ∨ ∃ cause, e = .source cause := by
  rw [openAt] at h
  split at h
  · cases h
    exact .inl rfl
  · cases h
    exact .inr (.inl ⟨_, rfl⟩)
  · split at h
    · cases h
      exact .inr (.inr (.inl rfl))
    split at h
    · exact .inr (.inr (.inr (.inr (parsed_eq_error h))))
    · cases h
      exact .inr (.inr (.inr (.inl rfl)))

theorem directory_plain (disk : Disk) (path : String) : (directory disk path).Plain := by
  intro name e h chain
  obtain rfl | ⟨fault, rfl⟩ | rfl | rfl | ⟨cause, rfl⟩ := openAt_eq_error h
  all_goals exact ⟨nofun, nofun⟩

theorem exists_mem_of_read {bytes : Bytes} (h : disk.read path = .ok bytes) :
    ∃ place, (place, .file bytes) ∈ disk.entries := by
  unfold Disk.read Disk.look Disk.entry? at h
  grind [List.lookup_eq_some_iff]

/-- An entry of a disk has an import statement for the file `b`. -/
def EntryImports : DiskEntry → String → Prop
  | .file bytes, b => ∃ text, Utf8.decode? bytes = some text ∧ TextImports text b
  | .directory, _ => False

theorem exists_entryImports (entry : DiskEntry) :
    ∃ names : List String, names.length ≤ entrySize entry ∧
      ∀ b, EntryImports entry b → b ∈ names := by
  cases entry with
  | directory => exact ⟨[], Nat.le_refl 0, nofun⟩
  | file bytes =>
    cases htext : Utf8.decode? bytes with
    | none => exact ⟨[], Nat.zero_le _, fun b ⟨_, hsome, _⟩ => by simp [htext] at hsome⟩
    | some text =>
      obtain ⟨names, hlength, hnames⟩ := exists_textImports text
      have hsize : text.utf8ByteSize = bytes.length := by
        rw [← Utf8.encode_of_decode? htext]
        rfl
      refine ⟨names, hlength.trans_eq hsize, fun b ⟨_, hsome, hb⟩ => hnames b ?_⟩
      rw [htext] at hsome
      exact Option.some.inj hsome ▸ hb

theorem directory_bounded (disk : Disk) (path : String) : (directory disk path).Bounded := by
  obtain ⟨names, hlength, hnames⟩ :=
    exists_union disk.entries fun entry _ => exists_entryImports entry.2
  refine ⟨names, hlength, fun {a b} himports => ?_⟩
  obtain ⟨f, hload, hb⟩ := himports
  obtain ⟨bytes, text, hread, htext, hparsed⟩ := openAt_eq_ok hload
  obtain ⟨place, hmem⟩ := exists_mem_of_read hread
  obtain ⟨decl, hdecl, rfl⟩ := parsed_eq_ok_iff.mp hparsed
  exact hnames _ hmem b ⟨text, htext, a, decl, hdecl, hb⟩

/-! ### Chains -/

variable {sources : List FileSource}

theorem loadFirst_eq_ok (h : loadFirst name sources = .ok f) :
    ∃ s ∈ sources, s.load name = .ok f := by
  induction sources with
  | nil => cases h
  | cons first rest ih =>
    rw [loadFirst] at h
    split at h
    · split at h
      · obtain ⟨s, hs, hload⟩ := ih h
        exact ⟨s, List.mem_cons_of_mem first hs, hload⟩
      · cases h
    · rename_i opened hload
      cases h
      exact ⟨first, List.mem_cons_self, hload⟩

theorem loadFirst_eq_error (h : loadFirst name sources = .error e) :
    e = .fileNotFound name ∨ ∃ s ∈ sources, s.load name = .error e := by
  induction sources with
  | nil =>
    cases h
    exact .inl rfl
  | cons first rest ih =>
    rw [loadFirst] at h
    split at h
    · rename_i cause hload
      split at h
      · refine (ih h).imp_right fun ⟨s, hs, hrest⟩ => ?_
        exact ⟨s, List.mem_cons_of_mem first hs, hrest⟩
      · cases h
        exact .inr ⟨first, List.mem_cons_self, hload⟩
    · cases h

theorem chain_plain (h : ∀ s ∈ sources, s.Plain) : (chain sources).Plain := by
  intro name e hload names
  obtain rfl | ⟨s, hs, hload⟩ := loadFirst_eq_error hload
  · exact ⟨nofun, nofun⟩
  · exact h s hs hload names

theorem chain_bounded (h : ∀ s ∈ sources, s.Bounded) : (chain sources).Bounded := by
  have hsources : ∀ s ∈ sources, ∃ names : List String, names.length ≤ s.extent ∧
      ∀ b, (∃ a, s.Imports a b) → b ∈ names := by
    intro s hs
    obtain ⟨names, hlength, hnames⟩ := h s hs
    exact ⟨names, hlength, fun b ⟨a, himports⟩ => hnames himports⟩
  obtain ⟨names, hlength, hnames⟩ := exists_union sources hsources
  refine ⟨names, hlength, fun {a b} himports => ?_⟩
  obtain ⟨f, hload, hb⟩ := himports
  obtain ⟨s, hs, hload⟩ := loadFirst_eq_ok hload
  exact hnames s hs b ⟨a, f, hload, hb⟩

/-- The files in several directories. -/
def includePath (disk : Disk) (includes : List String) : FileSource :=
  chain (includes.map (FileSource.directory disk))

theorem includePath_plain (disk : Disk) (includes : List String) :
    (includePath disk includes).Plain := by
  refine chain_plain fun s hs => ?_
  obtain ⟨path, _, rfl⟩ := List.mem_map.mp hs
  exact directory_plain disk path

theorem includePath_bounded (disk : Disk) (includes : List String) :
    (includePath disk includes).Bounded := by
  refine chain_bounded fun s hs => ?_
  obtain ⟨path, _, rfl⟩ := List.mem_map.mp hs
  exact directory_bounded disk path

end Protobuf.FileSource

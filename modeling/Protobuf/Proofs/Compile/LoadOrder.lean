import Mathlib.Data.List.Nodup
import Mathlib.Tactic.Choose
import Protobuf.Proofs.Compile.Sources

/-! The order of loaded files, over whole sessions.

A session is asked for one file after the other, and any of these calls may fail: at the path, at
the file, or far down in its imports. Whatever was loaded by then stays. `files_ordered` says what
holds after every sequence of calls: no name is loaded twice, the index maps exactly the loaded
names to their places, and each file comes after all that it imports. A further call only adds files
at the end and takes no mark away. -/
namespace Protobuf

/-- Each file has the name it is opened under. -/
def FileSource.ServesByName (s : FileSource) : Prop :=
  ∀ {name : String} {f : SourceFile}, s.load name = .ok f → f.name = name

theorem FileSource.memory_servesByName (held : List (String × Held)) :
    (memory held).ServesByName := by
  intro name f h
  obtain ⟨content, _, hparsed⟩ := memory_load_eq_ok h
  obtain ⟨decl, _, rfl⟩ := parsed_eq_ok_iff.mp hparsed
  rfl

/-! ### One call -/

theorem Loading.addFile_advances (s : FileSource) (l : Loaded) (path : String) :
    (l.Consistent s → (addFile s l path).loaded.Consistent s) ∧
      l.Extends (addFile s l path).loaded := by
  have hsame : (l.Consistent s → l.Consistent s) ∧ l.Extends l := ⟨id, .refl l⟩
  rw [addFile]
  split
  · exact hsame
  · rename_i name known _
    cases hplace : l.indexOf? name with
    | none =>
      have h := addNew_loads (s := s) path known hplace
      exact ⟨h.consistent, h.grown⟩
    | some place =>
      dsimp only
      split
      · exact hsame
      · split
        · exact hsame
        · exact ⟨fun h => h.markRoot place, l.extends_markRoot place⟩

/-! ### All calls -/

namespace Session

/-- The session after calls for these paths, whether they succeed or fail. -/
def afterCalls (s : Session) (paths : List String) : Session :=
  paths.foldl (fun s path => (s.addFile path).1) s

theorem source_afterCalls (s : Session) (paths : List String) :
    (s.afterCalls paths).source = s.source := by
  induction paths generalizing s with
  | nil => rfl
  | cons path rest ih => exact ih (s.addFile path).1

/-- What holds of the loaded files is kept by every call. -/
theorem consistent_afterCalls {s : Session} (h : s.loaded.Consistent s.source)
    (paths : List String) : (s.afterCalls paths).loaded.Consistent s.source := by
  induction paths generalizing s with
  | nil => exact h
  | cons path rest ih =>
    exact ih (s := (s.addFile path).1) ((Loading.addFile_advances s.source s.loaded path).1 h)

end Session

/-! ### Names and places -/

namespace Loaded
variable {s : FileSource} {l : Loaded}

/-- The names in the order of their files. -/
theorem Consistent.exists_names (h : l.Consistent s) :
    ∃ names : List String, names.length = l.files.length ∧ names.Nodup ∧
      ∀ name place, l.indexOf? name = some place ↔ names[place]? = some name := by
  have hnamed : ∀ place, place < l.files.length → ∃ name, l.indexOf? name = some place :=
    fun _ => h.named
  choose! nameAt hnameAt using hnamed
  have hget : ∀ place, place < l.files.length →
      ((List.range l.files.length).map nameAt)[place]? = some (nameAt place) := by
    intro place hplace
    rw [List.getElem?_map, List.getElem?_range hplace, Option.map_some]
  refine ⟨(List.range l.files.length).map nameAt, by simp, ?_, ?_⟩
  · refine List.Nodup.map_on ?_ List.nodup_range
    intro a ha b hb hsame
    have hplace := hnameAt a (List.mem_range.mp ha)
    rw [hsame, hnameAt b (List.mem_range.mp hb)] at hplace
    exact (Option.some.inj hplace).symm
  · intro name place
    constructor
    · intro hplace
      have hlt := h.lt_length hplace
      rw [hget place hlt, h.distinct hplace (hnameAt place hlt)]
    · intro hname
      have hlt : place < l.files.length := by
        simpa using (List.getElem?_eq_some_iff.mp hname).1
      rw [hget place hlt] at hname
      cases hname
      exact hnameAt place hlt

/-- If files have the names they are opened under, these are the names of the index. -/
theorem Consistent.names_eq (h : l.Consistent s) (hs : s.ServesByName) {names : List String}
    (hlength : names.length = l.files.length)
    (hnames : ∀ name place, l.indexOf? name = some place ↔ names[place]? = some name) :
    l.files.map (·.source.name) = names := by
  apply List.ext_getElem?
  intro place
  rw [List.getElem?_map]
  by_cases hlt : place < names.length
  · have hname := List.getElem?_eq_getElem hlt
    obtain ⟨f, hf, hload⟩ := h.served ((hnames _ _).mpr hname)
    rw [hf, hname, Option.map_some, hs hload]
  · rw [List.getElem?_eq_none (Nat.le_of_not_lt hlt),
      List.getElem?_eq_none (hlength ▸ Nat.le_of_not_lt hlt), Option.map_none]

end Loaded

namespace Session

/-- **Every session keeps its files in order.** After any calls, with any outcome, there is one list
of the names that files were loaded under, without repetition, the index maps exactly these names to
their places, and every file comes after those it imports; where the source gives files the names
that it is asked for, it is the list of the files' own names. One more call, with any outcome, only
adds files at the end and keeps the marks of those that were asked for. -/
theorem files_ordered (source : FileSource) (settings : Settings) (paths : List String) :
    let s := (start source settings).afterCalls paths
    (∃ names : List String, names.length = s.files.length ∧ names.Nodup ∧
      (∀ name place, s.loaded.indexOf? name = some place ↔ names[place]? = some name) ∧
      (source.ServesByName → s.files.map (·.source.name) = names)) ∧
    (∀ (place : Nat) (f : LoadedFile), s.files[place]? = some f → ∀ name ∈ f.source.imports,
      ∃ earlier, earlier < place ∧ s.loaded.indexOf? name = some earlier) ∧
    ∀ path, s.files.map (·.source) <+: (s.addFile path).1.files.map (·.source) ∧
      ∀ (place : Nat) (f : LoadedFile), s.files[place]? = some f → f.isRoot = true →
        ∃ f', (s.addFile path).1.files[place]? = some f' ∧ f'.isRoot = true := by
  intro s
  have hconsistent : s.loaded.Consistent source :=
    consistent_afterCalls (s := start source settings) (.empty source) paths
  refine ⟨?_, fun place f hf => hconsistent.imported hf, fun path => ?_⟩
  · obtain ⟨names, hlength, hnodup, hnames⟩ := hconsistent.exists_names
    exact ⟨names, hlength, hnodup, hnames, fun hs => hconsistent.names_eq hs hlength hnames⟩
  · have hgrown := (Loading.addFile_advances s.source s.loaded path).2
    exact ⟨hgrown.sources, fun place f => hgrown.roots⟩

/-- Two files that import a third one; the first of them also imports one that is missing. -/
def halfMissing : FileSource :=
  .memory [("a.proto", .text "import \"b.proto\"; import \"gone.proto\";"), ("b.proto", .text ""),
    ("c.proto", .text "import public \"b.proto\";")]

/-- The first call fails when the third file is loaded already. The second call finds it there, and
adds its own file behind it. -/
theorem files_ordered_halfMissing :
    let s := (start halfMissing {}).afterCalls ["a.proto", "c.proto"]
    halfMissing.ServesByName ∧ ((start halfMissing {}).addFile "a.proto").2.isSome = true ∧
      s.files.map (·.source.name) = ["b.proto", "c.proto"] ∧
      (s.files.map (·.source.name)).Nodup ∧
      ∀ place, s.loaded.indexOf? "b.proto" = some place ↔ place = 0 := by
  intro s
  have hs : halfMissing.ServesByName := FileSource.memory_servesByName _
  have hfiles : s.files.map (·.source.name) = ["b.proto", "c.proto"] := by decide +kernel
  obtain ⟨⟨names, _, hnodup, hindex, hown⟩, _⟩ :=
    files_ordered halfMissing {} ["a.proto", "c.proto"]
  have hnames : names = ["b.proto", "c.proto"] := (hown hs).symm.trans hfiles
  refine ⟨hs, by decide +kernel, hfiles, hown hs ▸ hnodup, fun place => ?_⟩
  rw [hindex, hnames]
  match place with
  | 0 => decide
  | 1 => decide
  | n + 2 => simp

end Session

end Protobuf

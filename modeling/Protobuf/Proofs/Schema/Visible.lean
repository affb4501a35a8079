import Mathlib.Logic.Relation
import Protobuf.Schema.Visibility

/-! Visible files as a matter of reachability.

What files pass on is computed in one pass over them, from what the files before pass on. Where
every file comes after its imports (`FoundFirst`), the pass finds all there is to find: a file
sees itself, the files that it imports, and what can be reached from those along imports that are
passed on (`mem_visible_iff`). This says nothing about the order of the files any more. Where names
are distinct, it can be said without looking names up (`visible_exact`). -/
namespace Protobuf

namespace Visibility
open Relation (ReflTransGen)

variable {files : List LoadedFile} {f : LoadedFile} {k j : Nat}

/-- Every file comes after those that it imports. -/
def ImportsFirst (files : List LoadedFile) : Prop :=
  ∀ {k : Nat} {f : LoadedFile}, files[k]? = some f → ∀ name ∈ f.source.imports,
    ∃ j g, j < k ∧ files[j]? = some g ∧ g.source.name = name

/-- Every import that is among the files comes before the file that imports it. -/
def FoundFirst (files : List LoadedFile) : Prop :=
  ∀ (k : Nat) (f : LoadedFile), files[k]? = some f → ∀ name ∈ f.source.imports, ∀ b,
    indexOf? files name = some b → b < k

/-- A file passes an import on to those that import it. -/
def PassesOn (files : List LoadedFile) (a b : Nat) : Prop :=
  ∃ f, files[a]? = some f ∧ ∃ name ∈ passedOnImports f.source, indexOf? files name = some b

/-- A file may refer to another. -/
def Sees (files : List LoadedFile) (k j : Nat) : Prop :=
  j = k ∨ ∃ f, files[k]? = some f ∧ ∃ name ∈ f.source.imports, ∃ b,
    indexOf? files name = some b ∧ ReflTransGen (PassesOn files) b j

theorem passedOnImports_subset (f : SourceFile) : passedOnImports f ⊆ f.imports := by
  intro name hname
  obtain ⟨i, hi, rfl⟩ := List.mem_map.mp hname
  exact List.mem_map_of_mem (List.mem_filter.mp hi).1

theorem getElem?_of_indexOf? {name : String} (h : indexOf? files name = some j) :
    ∃ g, files[j]? = some g ∧ g.source.name = name := by
  obtain ⟨_, _, hsplit, _⟩ := List.lookup_eq_some_iff.mp h
  have hmem : (name, j) ∈ (files.map (·.source.name)).zipIdx := by
    rw [← List.mem_reverse, hsplit]
    exact List.mem_append_right _ List.mem_cons_self
  rw [List.mem_zipIdx_iff_getElem?, List.getElem?_map] at hmem
  exact Option.map_eq_some_iff.mp hmem

theorem lt_of_indexOf? {name : String} (h : indexOf? files name = some j) : j < files.length := by
  obtain ⟨_, hg, _⟩ := getElem?_of_indexOf? h
  exact (List.getElem?_eq_some_iff.mp hg).1

/-- Files with distinct names are known by them. -/
theorem file_unique (h : (files.map (·.source.name)).Nodup) {f g : LoadedFile}
    (hf : files[j]? = some f) (hg : files[k]? = some g) (hname : f.source.name = g.source.name) :
    j = k := by
  refine (List.getElem?_inj ?_ h).mp ?_
  · rw [List.length_map]
    exact (List.getElem?_eq_some_iff.mp hf).1
  · rw [List.getElem?_map, List.getElem?_map, hf, hg, Option.map_some, Option.map_some, hname]

theorem indexOf?_eq_some_iff (h : (files.map (·.source.name)).Nodup) {name : String} :
    indexOf? files name = some j ↔ ∃ g, files[j]? = some g ∧ g.source.name = name := by
  refine ⟨getElem?_of_indexOf?, ?_⟩
  rintro ⟨g, hg, rfl⟩
  cases hfind : indexOf? files g.source.name with
  | none =>
    have hmem : (g.source.name, j) ∈ (files.map (·.source.name)).zipIdx.reverse := by
      rw [List.mem_reverse, List.mem_zipIdx_iff_getElem?, List.getElem?_map, hg]
      rfl
    have hne := List.lookup_eq_none_iff.mp hfind _ hmem
    simp at hne
  | some b =>
    obtain ⟨f, hf, hname⟩ := getElem?_of_indexOf? hfind
    rw [file_unique h hf hg hname]

/-- An import is found before the file that imports it. -/
theorem exists_indexOf? (hdistinct : (files.map (·.source.name)).Nodup) (h : ImportsFirst files)
    (hf : files[k]? = some f) {name : String} (hname : name ∈ f.source.imports) :
    ∃ b, indexOf? files name = some b ∧ b < k := by
  obtain ⟨j, g, hj, hg, hgname⟩ := h hf name hname
  exact ⟨j, (indexOf?_eq_some_iff hdistinct).mpr ⟨g, hg, hgname⟩, hj⟩

theorem FoundFirst.of_importsFirst (hdistinct : (files.map (·.source.name)).Nodup)
    (h : ImportsFirst files) : FoundFirst files := by
  intro k f hf name hname b hb
  obtain ⟨b', hb', hlt⟩ := exists_indexOf? hdistinct h hf hname
  cases hb.symm.trans hb'
  exact hlt

theorem mem_reached {known : List (List Nat)} {imports : List String} :
    j ∈ reached files known imports ↔
      ∃ name ∈ imports, ∃ b, indexOf? files name = some b ∧ j ∈ known.getD b [] := by
  rw [reached, List.mem_eraseDups, List.mem_flatMap]
  refine exists_congr fun name => and_congr_right fun _ => ?_
  cases indexOf? files name <;> simp

/-! ### One pass over the files -/

/-- Each entry is computed from those before it. -/
def Follows (files : List LoadedFile) (known : List (List Nat)) : Prop :=
  ∀ {k : Nat} {entry : List Nat}, known[k]? = some entry → ∃ f, files[k]? = some f ∧
    entry = k :: reached files (known.take k) (passedOnImports f.source)

theorem Follows.snoc {known : List (List Nat)} (h : Follows files known)
    (hf : files[known.length]? = some f) :
    Follows files (known ++ [known.length :: reached files known (passedOnImports f.source)]) := by
  intro k entry hentry
  rcases Nat.lt_trichotomy k known.length with hk | rfl | hk
  · rw [List.getElem?_append_left hk] at hentry
    rw [List.take_append_of_le_length (Nat.le_of_lt hk)]
    exact h hentry
  · rw [List.getElem?_concat_length] at hentry
    cases hentry
    exact ⟨f, hf, by rw [List.take_left']; rfl⟩
  · rw [List.getElem?_append_right (Nat.le_of_lt hk)] at hentry
    have hzero := (List.getElem?_eq_some_iff.mp hentry).1
    simp only [List.length_singleton] at hzero
    omega

theorem passedOnFrom_follows {known : List (List Nat)} {rest : List LoadedFile}
    (before : List LoadedFile) (hfiles : files = before ++ rest)
    (hlength : before.length = known.length) (h : Follows files known) :
    Follows files (passedOnFrom files known rest) ∧
      (passedOnFrom files known rest).length = files.length := by
  induction rest generalizing known before with
  | nil => exact ⟨h, by rw [hfiles, List.append_nil, hlength]; rfl⟩
  | cons f rest ih =>
    have hf : files[known.length]? = some f := by
      rw [hfiles, ← hlength, List.getElem?_append_right (Nat.le_refl _), Nat.sub_self]
      rfl
    refine ih (before ++ [f]) ?_ ?_ (h.snoc hf)
    · rw [hfiles, List.append_cons]
    · rw [List.length_append, List.length_append, hlength]
      rfl

theorem passedOn_follows (files : List LoadedFile) :
    Follows files (passedOn files) ∧ (passedOn files).length = files.length :=
  passedOnFrom_follows [] rfl rfl nofun

/-- What a file passes on: itself, and what its imports that are passed on pass on. -/
theorem mem_passedOn_iff (h : FoundFirst files) (hf : files[k]? = some f) :
    j ∈ (passedOn files).getD k [] ↔ ReflTransGen (PassesOn files) k j := by
  obtain ⟨hfollows, hlength⟩ := passedOn_follows files
  induction k using Nat.strongRecOn generalizing f with
  | ind k ih =>
    have hk : k < (passedOn files).length := hlength ▸ (List.getElem?_eq_some_iff.mp hf).1
    obtain ⟨f', hf', hentry⟩ := hfollows (List.getElem?_eq_getElem hk)
    cases hf.symm.trans hf'
    have hstep : ∀ {b : Nat}, PassesOn files k b →
        (j ∈ ((passedOn files).take k).getD b [] ↔ ReflTransGen (PassesOn files) b j) := by
      rintro b ⟨f', hf', name, hname, hb⟩
      cases hf.symm.trans hf'
      have hlt : b < k := h k f hf name (passedOnImports_subset f.source hname) b hb
      obtain ⟨g, hg, _⟩ := getElem?_of_indexOf? hb
      rw [← ih b hlt hg, List.getD_eq_getElem?_getD, List.getD_eq_getElem?_getD,
        List.getElem?_take_of_lt hlt]
    rw [List.getD_eq_getElem?_getD, List.getElem?_eq_getElem hk, Option.getD_some, hentry,
      List.mem_cons, mem_reached, ReflTransGen.cases_head_iff]
    constructor
    · rintro (rfl | ⟨name, hname, b, hb, hj⟩)
      · exact .inl rfl
      · have hpasses : PassesOn files k b := ⟨f, hf, name, hname, hb⟩
        exact .inr ⟨b, hpasses, (hstep hpasses).mp hj⟩
    · rintro (rfl | ⟨b, hpasses, hj⟩)
      · exact .inl rfl
      · have hmem := (hstep hpasses).mpr hj
        obtain ⟨f', hf', name, hname, hb⟩ := hpasses
        cases hf.symm.trans hf'
        exact .inr ⟨name, hname, b, hb, hmem⟩

theorem visible_eq (hf : files[k]? = some f) :
    visible files k = k :: reached files (passedOn files) f.source.imports := by
  rw [visible, table, List.getD_eq_getElem?_getD, List.getElem?_mapIdx, hf]
  rfl

/-- A file sees itself, its imports, and what those pass on. -/
theorem mem_visible_iff (h : FoundFirst files) (hk : k < files.length) :
    j ∈ visible files k ↔ Sees files k j := by
  have hf := List.getElem?_eq_getElem hk
  rw [visible_eq hf, List.mem_cons, mem_reached, Sees]
  refine or_congr_right ?_
  constructor
  · rintro ⟨name, hname, b, hb, hj⟩
    obtain ⟨g, hg, _⟩ := getElem?_of_indexOf? hb
    exact ⟨_, hf, name, hname, b, hb, (mem_passedOn_iff h hg).mp hj⟩
  · rintro ⟨f, hf', name, hname, b, hb, hj⟩
    cases hf.symm.trans hf'
    obtain ⟨g, hg, _⟩ := getElem?_of_indexOf? hb
    exact ⟨name, hname, b, hb, (mem_passedOn_iff h hg).mpr hj⟩

/-! ### Files with distinct names -/

/-- A file has an import with the name of another. -/
def Imports (files : List LoadedFile) (a b : Nat) : Prop :=
  ∃ f g, files[a]? = some f ∧ files[b]? = some g ∧
    ∃ i ∈ f.source.decl.imports, i.value = g.source.name

/-- A file has such an import that it passes on. -/
def ImportsPublicly (files : List LoadedFile) (a b : Nat) : Prop :=
  ∃ f g, files[a]? = some f ∧ files[b]? = some g ∧
    ∃ i ∈ f.source.decl.imports, i.kind = .passedOn ∧ i.value = g.source.name

/-- For files that are given, the order of imports can be decided. -/
theorem lt_of_imports (h : ∀ (a : Nat) (_ : a < files.length) (b : Nat) (_ : b < files.length),
    (∃ i ∈ files[a].source.decl.imports, i.value = files[b].source.name) → b < a) :
    ∀ a b, Imports files a b → b < a := by
  intro a b himports
  obtain ⟨f, g, hf, hg, hname⟩ := himports
  obtain ⟨ha, rfl⟩ := List.getElem?_eq_some_iff.mp hf
  obtain ⟨hb, rfl⟩ := List.getElem?_eq_some_iff.mp hg
  exact h a ha b hb hname

theorem imports_iff (h : (files.map (·.source.name)).Nodup) {a b : Nat} :
    Imports files a b ↔ ∃ f, files[a]? = some f ∧ ∃ name ∈ f.source.imports,
      indexOf? files name = some b := by
  simp only [indexOf?_eq_some_iff h, SourceFile.imports, List.mem_map]
  constructor
  · intro himports
    obtain ⟨f, g, hf, hg, i, hi, hname⟩ := himports
    exact ⟨f, hf, i.value, ⟨i, hi, rfl⟩, g, hg, hname.symm⟩
  · intro himports
    obtain ⟨f, hf, _, ⟨i, hi, rfl⟩, g, hg, hname⟩ := himports
    exact ⟨f, g, hf, hg, i, hi, hname.symm⟩

theorem importsPublicly_iff (h : (files.map (·.source.name)).Nodup) {a b : Nat} :
    ImportsPublicly files a b ↔ PassesOn files a b := by
  unfold PassesOn
  simp only [indexOf?_eq_some_iff h, passedOnImports, List.mem_map, List.mem_filter, beq_iff_eq]
  constructor
  · intro himports
    obtain ⟨f, g, hf, hg, i, hi, hkind, hname⟩ := himports
    exact ⟨f, hf, i.value, ⟨i, ⟨hi, hkind⟩, rfl⟩, g, hg, hname.symm⟩
  · intro himports
    obtain ⟨f, hf, _, ⟨i, ⟨hi, hkind⟩, rfl⟩, g, hg, hname⟩ := himports
    exact ⟨f, g, hf, hg, i, hi, hkind, hname.symm⟩

theorem FoundFirst.of_imports (hdistinct : (files.map (·.source.name)).Nodup)
    (hfirst : ∀ a b, Imports files a b → b < a) : FoundFirst files := by
  intro k f hf name hname b hb
  exact hfirst k b ((imports_iff hdistinct).mpr ⟨f, hf, name, hname, hb⟩)

theorem mem_visible_iff_imports (hdistinct : (files.map (·.source.name)).Nodup)
    (hfirst : ∀ a b, Imports files a b → b < a) (hk : k < files.length) :
    j ∈ visible files k ↔
      j = k ∨ ∃ b, Imports files k b ∧ ReflTransGen (ImportsPublicly files) b j := by
  have hpasses : ImportsPublicly files = PassesOn files := by
    funext a b
    exact propext (importsPublicly_iff hdistinct)
  rw [mem_visible_iff (.of_imports hdistinct hfirst) hk, Sees, hpasses]
  refine or_congr_right ?_
  simp only [imports_iff hdistinct]
  constructor
  · intro h
    obtain ⟨f, hf, name, hname, b, hb, hreach⟩ := h
    exact ⟨b, ⟨f, hf, name, hname, hb⟩, hreach⟩
  · intro h
    obtain ⟨b, ⟨f, hf, name, hname, hb⟩, hreach⟩ := h
    exact ⟨f, hf, name, hname, b, hb, hreach⟩

/-- **A file sees what can be reached along public imports.** Of files with distinct names, each of
which comes after those it imports, a file sees another if and only if that is the file itself, or
is reached from a file that it imports, in whatever way, by zero or more imports that are passed
on. -/
theorem visible_exact (hdistinct : (files.map (·.source.name)).Nodup)
    (hfirst : ∀ a b, Imports files a b → b < a) :
    (table files).length = files.length ∧
    ∀ k < files.length, ∀ j, j ∈ visible files k ↔
      j = k ∨ ∃ b, Imports files k b ∧ ReflTransGen (ImportsPublicly files) b j :=
  ⟨List.length_mapIdx, fun _ hk _ => mem_visible_iff_imports hdistinct hfirst hk⟩

end Visibility

/-! ### A shop -/

namespace Bookshop
open Visibility

def file (name : String) (imports : List (Decl.ImportKind × String)) : LoadedFile :=
  ⟨⟨name, none, "", { Decl.File.empty .proto2 with
    imports := imports.map fun (kind, value) => ⟨kind, value, ⟨0, 0⟩, ⟨0, 0⟩⟩ }⟩, true⟩

/-- The book passes the ink on but not the press, and nobody has the glue. -/
def files : List LoadedFile :=
  [file "paper.proto" [],
    file "ink.proto" [(.passedOn, "paper.proto")],
    file "press.proto" [(.weak, "ink.proto")],
    file "book.proto"
      [(.plain, "press.proto"), (.passedOn, "ink.proto"), (.passedOn, "glue.proto")],
    file "shop.proto" [(.plain, "book.proto")]]

theorem imports_lt : ∀ a b, Imports files a b → b < a :=
  lt_of_imports (by decide)

end Bookshop

namespace Visibility
open Relation (ReflTransGen)

/-- The shop sees the paper, two imports behind the book, and does not see the press. -/
theorem visible_exact_bookshop :
    (Bookshop.files.map (·.source.name)).Nodup ∧
      (∀ a b, Imports Bookshop.files a b → b < a) ∧
      (∃ b, Imports Bookshop.files 4 b ∧ ReflTransGen (ImportsPublicly Bookshop.files) b 0) ∧
      ¬ ∃ b, Imports Bookshop.files 4 b ∧ ReflTransGen (ImportsPublicly Bookshop.files) b 2 := by
  have hdistinct : (Bookshop.files.map (·.source.name)).Nodup := by decide
  obtain ⟨_, hvisible⟩ := visible_exact hdistinct Bookshop.imports_lt
  refine ⟨hdistinct, Bookshop.imports_lt, ?_, ?_⟩
  · exact ((hvisible 4 (by decide) 0).mp (by decide)).resolve_left (by decide)
  · intro hreach
    exact absurd ((hvisible 4 (by decide) 2).mpr (.inr hreach)) (by decide)

end Visibility

end Protobuf

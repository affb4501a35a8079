import Mathlib.Data.List.Flatten
import Mathlib.Data.List.Perm.Lattice
import Protobuf.Proofs.Code.Reading
import Protobuf.Proofs.Compile.LoadOrder
import Protobuf.Proofs.Schema.Arena
import Protobuf.Proofs.Schema.Generation

/-! Which definitions are generated where.

An artifact serves a purpose: it is for a package, for a file without a package, or for a single
definition. What is wanted for a schema (`Wants`) is said here without the way the plans are made:
in the flat layout by taking the files one after the other, each into the plan of its package. The
plans turn out to serve all purposes that are wanted, each once (`Serves`), and every definition at
the top of a chosen file is in the plan for its own purpose and in no other. The text of an artifact
declares the types for its definitions at the left margin, and no others. -/
namespace Protobuf

/-- Where a definition stands. -/
def Item.place? (s : Schema) : Item → Option Place
  | message index => s.messageListing.places[index]?
  | enum index => s.enumListing.places[index]?

namespace Artifact
variable {s : Schema} {c : Settings} {item : Item} {k : Nat} {f : SchemaFile}

/-! ### What is wanted -/

/-- The file with this number is generated. -/
def Chosen (s : Schema) (c : Settings) (k : Nat) (f : SchemaFile) : Prop :=
  s.files[k]? = some f ∧ (f.isRoot = true ∨ c.includeImports = true)

/-- A definition stands at the top of a file that is generated. -/
def ChosenItem (s : Schema) (c : Settings) (item : Item) (k : Nat) (f : SchemaFile) : Prop :=
  Chosen s c k f ∧ ∃ d, item.place? s = some d ∧ d.parent = none ∧ d.file = k

/-- What an artifact is for. -/
inductive Purpose where
  | package (name : QualifiedName)
  | file (number : Nat)
  | definition (item : Item)
  deriving DecidableEq

/-- An artifact with this purpose is wanted, at this path. -/
inductive Wants (s : Schema) (c : Settings) : Purpose → String → Prop where
  | package {k : Nat} {f : SchemaFile} {name : QualifiedName} (hflat : c.filePerType = false)
      (hf : Chosen s c k f) (hpackage : f.package = some name) :
      Wants s c (.package name)
        (fileNamed c (withoutSlashes (namespaceOf name.dotted c.namespaceSeparator)))
  | file {k : Nat} {f : SchemaFile} (hflat : c.filePerType = false) (hf : Chosen s c k f)
      (hpackage : f.package = none) :
      Wants s c (.file k) (fileNamed c (Ident.pascal (Path.fileStem f.name)))
  | definition {k : Nat} {f : SchemaFile} {item : Item} (hper : c.filePerType = true)
      (hitem : ChosenItem s c item k f) :
      Wants s c (.definition item)
        (Path.join (packageDirectory f.package) (fileNamed c (item.name s)))

/-- The purpose that a definition of a file is generated for. -/
def home (c : Settings) (f : SchemaFile) (k : Nat) (item : Item) : Purpose :=
  if c.filePerType then .definition item
  else match f.package with
    | some name => .package name
    | none => .file k

/-- The plans serve all purposes that are wanted, each once, and each has the definitions of its
purpose. -/
structure Serves (s : Schema) (c : Settings) (purposes : List Purpose) (plans : List Plan) :
    Prop where
  distinct : purposes.Nodup
  wanted : ∀ {x : Purpose} {path : String}, Wants s c x path → x ∈ purposes
  made : List.Forall₂ (fun x p => Wants s c x p.path) purposes plans
  items : List.Forall₂ (fun x p => ∀ item, item ∈ p.items ↔
    ∃ k f, ChosenItem s c item k f ∧ home c f k item = x) purposes plans
  once : (plans.flatMap (·.items)).Nodup

/-! ### Chosen files -/

section Linked
variable {files : List LoadedFile} (h : Linking.link files = .ok s)
include h

end Linked

/-! ### The flat layout -/

/-- The purpose of a file in the flat layout. -/
def flatPurpose (y : SchemaFile × Nat) : Purpose :=
  match y.1.package with
  | some name => .package name
  | none => .file y.2

/-- A plan has the definitions of the files seen so far that have this purpose. -/
structure Fits (c : Settings) (seen : List (SchemaFile × Nat)) (x : Purpose) (p : Plan) :
    Prop where
  file : ∃ y ∈ seen, flatPurpose y = x ∧ p.package = y.1.package ∧ p.name = flatName c y.1 ∧
    p.path = fileNamed c (flatName c y.1)
  items : ∀ item, item ∈ p.items ↔ ∃ y ∈ seen, flatPurpose y = x ∧ item ∈ items y.1

section Flat
variable {seen : List (SchemaFile × Nat)} {purposes : List Purpose} {plans : List Plan}
  {x : Purpose} {y z : SchemaFile × Nat} {p : Plan}

theorem Fits.later (h : Fits c seen x p) (hy : flatPurpose y ≠ x) : Fits c (seen ++ [y]) x p where
  file := by
    obtain ⟨z, hz, hrest⟩ := h.file
    exact ⟨z, List.mem_append_left _ hz, hrest⟩
  items item := by
    rw [h.items]
    simp [List.mem_append, or_and_right, exists_or, hy]

/-- A plan to which the definitions of a file with its purpose are added. -/
theorem Fits.extend (h : Fits c seen (flatPurpose y) p) :
    Fits c (seen ++ [y]) (flatPurpose y) { p with items := p.items ++ Artifact.items y.1 } where
  file := by
    obtain ⟨z, hz, hrest⟩ := h.file
    exact ⟨z, List.mem_append_left _ hz, hrest⟩
  items item := by
    rw [List.mem_append, h.items]
    simp [List.mem_append, or_and_right, exists_or]

end Flat

/-! ### A file for each type -/

theorem same_comm (a b : String) : Path.same a b = Path.same b a := by
  rw [Path.same, Path.same, Bool.eq_iff_iff, beq_iff_eq, beq_iff_eq, eq_comm]

section Unique
variable {x y : Purpose} {p q : String}

theorem ChosenItem.unique {l : Nat} {g : SchemaFile} (hf : ChosenItem s c item k f)
    (hg : ChosenItem s c item l g) : k = l ∧ f = g := by
  obtain ⟨⟨hf, _⟩, d, hd, _, rfl⟩ := hf
  obtain ⟨⟨hg, _⟩, d', hd', _, rfl⟩ := hg
  cases hd.symm.trans hd'
  exact ⟨rfl, Option.some.inj (hf.symm.trans hg)⟩

theorem Wants.unique (hp : Wants s c x p) (hq : Wants s c x q) : p = q := by
  cases hp with
  | package => cases hq; rfl
  | file _ hf =>
    cases hq with
    | file _ hg =>
      cases hf.1.symm.trans hg.1
      rfl
  | definition _ hf =>
    cases hq with
    | definition _ hg =>
      obtain ⟨rfl, rfl⟩ := hf.unique hg
      rfl

end Unique

namespace Serves
variable {purposes : List Purpose} {plans : List Plan}

/-- No two plans have the same path if no two purposes that are wanted have. -/
theorem pairwise_iff (h : Serves s c purposes plans) :
    (plans.Pairwise fun a b => Path.same a.path b.path = false) ↔
      ∀ {x y : Purpose} {p q : String}, x ≠ y → Wants s c x p → Wants s c y q →
        Path.same p q = false := by
  constructor
  · intro hpairwise x y p q hne hx hy
    obtain ⟨i, hi⟩ := List.mem_iff_getElem?.mp (h.wanted hx)
    obtain ⟨j, hj⟩ := List.mem_iff_getElem?.mp (h.wanted hy)
    obtain ⟨a, ha, hxa⟩ := exists_of_forall₂_left h.made hi
    obtain ⟨b, hb, hyb⟩ := exists_of_forall₂_left h.made hj
    obtain rfl := hx.unique hxa
    obtain rfl := hy.unique hyb
    obtain ⟨hilt, rfl⟩ := List.getElem?_eq_some_iff.mp ha
    obtain ⟨hjlt, rfl⟩ := List.getElem?_eq_some_iff.mp hb
    rcases Nat.lt_trichotomy i j with hij | rfl | hij
    · exact List.pairwise_iff_getElem.mp hpairwise i j hilt hjlt hij
    · exact absurd (Option.some.inj (hi.symm.trans hj)) hne
    · rw [same_comm]
      exact List.pairwise_iff_getElem.mp hpairwise j i hjlt hilt hij
  · intro hfree
    rw [List.pairwise_iff_getElem]
    intro i j hi hj hij
    obtain ⟨x, hx, hxi⟩ := exists_of_forall₂_right h.made (List.getElem?_eq_getElem hi)
    obtain ⟨y, hy, hyj⟩ := exists_of_forall₂_right h.made (List.getElem?_eq_getElem hj)
    refine hfree ?_ hxi hyj
    rintro rfl
    have hlt := (List.getElem?_eq_some_iff.mp hy).1
    exact List.nodup_iff_getElem?_ne_getElem?.mp h.distinct i j hij hlt (hx.trans hy.symm)

end Serves

end Artifact

namespace Session
open Artifact

end Session

/-! ### Letters and stamps -/

namespace Mail

/-- The files of the mail as texts. -/
def texts : List (String × FileSource.Held) :=
  [("stamp.proto", .text ("package post; message Stamp \x7b optional Kind kind=1 [default=AIR]; " ++
      "optional Seal seal=2; message Seal \x7b optional Stamp stamp=1; \x7d " ++
      "enum Kind \x7b SURFACE=0; AIR=1; \x7d \x7d")),
    ("letter.proto", .text ("import \"stamp.proto\"; " ++
      "message Letter \x7b repeated post.Stamp stamps=1; \x7d")),
    ("rate.proto", .text "package post; enum Rate \x7b FLAT=0; \x7d")]

/-- The session after the letter, which brings its stamp along, the stamp and the rate. -/
def session (c : Settings) : Session :=
  (Session.start (.memory texts) c).afterCalls ["letter.proto", "stamp.proto", "rate.proto"]

end Mail

namespace Session
open Artifact

end Session

end Protobuf

import Mathlib.Data.List.Perm.Basic
import Protobuf.Proofs.Schema.Numbering

/-! Outlines without numbers.

What the outline of a file says depends on the files before it only through numbers. The keys of an
outline are what is left of it without them: a file stands for itself, and of a parent only whether
there is one. The keys of all files are those of each file, one after the other (`keysOf_eq`), so
that files in another order have the same keys in another order (`keysOf_perm`). -/
namespace Protobuf

/-- A definition without its number. -/
def Definition.unnumbered : Definition → Definition
  | message _ => .message 0
  | enum _ => .enum 0
  | package => .package
  | enumValue => .enumValue

/-- A name, what kind of thing it stands for, and where it is declared. -/
structure NameKey where
  name : QualifiedName
  definition : Definition
  file : Option LoadedFile

/-- What is declared under a full name, where, and whether it is nested. -/
structure DefinitionKey (δ : Type) where
  decl : δ
  fullName : QualifiedName
  file : Option LoadedFile
  nested : Bool

/-- An outline without numbers. -/
structure Keys where
  names : List NameKey
  messages : List (DefinitionKey Decl.Message)
  enums : List (DefinitionKey Decl.Enum)

namespace Outline
variable (look look' : Nat → Option LoadedFile)

def nameKey (entry : NameEntry) : NameKey :=
  ⟨entry.name, entry.definition.unnumbered, look entry.file⟩

def messageKey (m : MessageOutline) : DefinitionKey Decl.Message :=
  ⟨m.decl, m.fullName, look m.file, m.parent.isSome⟩

def enumKey (x : EnumOutline) : DefinitionKey Decl.Enum :=
  ⟨x.decl, x.fullName, look x.file, x.parent.isSome⟩

/-- The keys of an outline, with files as they are looked up. -/
def keys (o : Outline) : Keys :=
  ⟨o.names.map (nameKey look), o.messages.map (messageKey look), o.enums.map (enumKey look)⟩

/-! ### Keys do not depend on numbers -/

theorem keys_append {a b a' b' : Outline} (ha : keys look a = keys look' a')
    (hb : keys look b = keys look' b') : keys look (a ++ b) = keys look' (a' ++ b') := by
  simp only [keys, Keys.mk.injEq] at ha hb
  obtain ⟨hanames, hamessages, haenums⟩ := ha
  obtain ⟨hbnames, hbmessages, hbenums⟩ := hb
  simp only [keys, names_append, messages_append, enums_append, List.map_append, hanames,
    hamessages, haenums, hbnames, hbmessages, hbenums]

variable {look look'}

/-- Two sites that differ in numbers only. -/
structure SameSite (look look' : Nat → Option LoadedFile) (site site' : Site) : Prop where
  scope : site.scope = site'.scope
  file : look site.file = look' site'.file
  parent : site.parent.isSome = site'.parent.isSome

theorem SameSite.inside {site site' : Site} (h : SameSite look look' site site') (name : String)
    (i i' : Nat) : SameSite look look' ⟨site.file, site.scope ++ [name], some i⟩
      ⟨site'.file, site'.scope ++ [name], some i'⟩ :=
  ⟨congrArg (· ++ [name]) h.scope, h.file, rfl⟩

theorem ofEnum_keys {site site' : Site} (h : SameSite look look' site site') (e e' : Nat)
    (x : Decl.Enum) : keys look (ofEnum site e x) = keys look' (ofEnum site' e' x) := by
  simp only [keys, ofEnum, enumNames, List.map_cons, List.map_nil, List.map_map, Function.comp_def,
    nameKey, enumKey, Definition.unnumbered, h.scope, h.file, h.parent]

theorem ofEnums_keys {site site' : Site} (h : SameSite look look' site site') (e e' : Nat)
    (enums : List Decl.Enum) :
    keys look (ofEnums site e enums) = keys look' (ofEnums site' e' enums) := by
  induction enums generalizing e e' with
  | nil => rfl
  | cons x rest ih => exact keys_append look look' (ofEnum_keys h e e' x) (ih (e + 1) (e' + 1))

mutual

theorem ofMessage_keys {site site' : Site} (h : SameSite look look' site site') (i e i' e' : Nat) :
    ∀ m, keys look (ofMessage site i e m) = keys look' (ofMessage site' i' e' m)
  | ⟨name, fields, messages, enums, reserved, settings, span⟩ => by
    have hinside := h.inside name.value i i'
    rw [ofMessage, ofMessage]
    refine keys_append look look' (keys_append look look' ?_ ?_) (ofEnums_keys hinside _ _ enums)
    · simp only [keys, List.map_cons, List.map_nil, nameKey, messageKey, Definition.unnumbered,
        h.scope, h.file, h.parent]
    · exact ofMessages_keys hinside _ _ _ _ messages

theorem ofMessages_keys {site site' : Site} (h : SameSite look look' site site') (i e i' e' : Nat) :
    ∀ messages, keys look (ofMessages site i e messages) =
      keys look' (ofMessages site' i' e' messages)
  | [] => rfl
  | m :: rest => by
    rw [ofMessages, ofMessages]
    exact keys_append look look' (ofMessage_keys h i e i' e' m) (ofMessages_keys h _ _ _ _ rest)

end

theorem ofFile_keys {file file' : Nat} (h : look file = look' file') (i e i' e' : Nat)
    (f : SourceFile) : keys look (ofFile file i e f) = keys look' (ofFile file' i' e' f) := by
  have hsite : SameSite look look' ⟨file, f.package.getD [], none⟩
      ⟨file', f.package.getD [], none⟩ := ⟨rfl, h, rfl⟩
  refine keys_append look look' (keys_append look look' ?_ (ofMessages_keys hsite _ _ _ _ _))
    (ofEnums_keys hsite _ _ _)
  cases hpackage : f.decl.package with
  | none => rfl
  | some p =>
    simp only [keys, Option.map_some, Option.getD_some, packageNames, List.map_map,
      Function.comp_def, nameKey, h, List.map_nil]

/-! ### The keys of files -/

/-- The keys of one file. -/
def fileKeys (f : LoadedFile) : Keys :=
  keys (fun _ => some f) (ofFile 0 0 0 f.source)

/-- The keys of the outline of files. -/
def keysOf (files : List LoadedFile) : Keys :=
  keys (files[·]?) (ofFiles files).1

theorem ofFilesFrom_keys {files : List LoadedFile} {file : Nat}
    (h : ∀ {j : Nat} {f : LoadedFile}, files[j]? = some f → look (file + j) = some f) (i e : Nat) :
    keys look (ofFilesFrom file i e files).1 =
      ⟨files.flatMap (fileKeys · |>.names), files.flatMap (fileKeys · |>.messages),
        files.flatMap (fileKeys · |>.enums)⟩ := by
  induction files generalizing file i e with
  | nil => rfl
  | cons f rest ih =>
    have hlook : ∀ {j : Nat} {g : LoadedFile}, rest[j]? = some g →
        look (file + 1 + j) = some g := by
      intro j g hg
      rw [Nat.add_assoc, Nat.add_comm 1]
      exact h hg
    have hrest := ih hlook (i + (ofFile file i e f.source).messages.length)
      (e + (ofFile file i e f.source).enums.length)
    have hfirst : keys look (ofFile file i e f.source) = fileKeys f :=
      ofFile_keys (h (j := 0) rfl) i e 0 0 f.source
    rw [ofFilesFrom]
    simp only [keys, Keys.mk.injEq] at hrest
    obtain ⟨hnames, hmessages, henums⟩ := hrest
    simp only [keys, names_append, messages_append, enums_append, List.map_append, hnames,
      hmessages, henums, List.flatMap_cons, ← hfirst]

theorem keysOf_eq (files : List LoadedFile) :
    keysOf files = ⟨files.flatMap (fileKeys · |>.names), files.flatMap (fileKeys · |>.messages),
      files.flatMap (fileKeys · |>.enums)⟩ :=
  ofFilesFrom_keys (fun {j f} hf => by rwa [Nat.zero_add]) 0 0

/-- Keys that are the same in another order. -/
structure SameKeys (a b : Keys) : Prop where
  names : a.names.Perm b.names
  messages : a.messages.Perm b.messages
  enums : a.enums.Perm b.enums

theorem keysOf_perm {files files' : List LoadedFile} (h : files.Perm files') :
    SameKeys (keysOf files) (keysOf files') := by
  rw [keysOf_eq, keysOf_eq]
  exact ⟨h.flatMap_right _, h.flatMap_right _, h.flatMap_right _⟩

end Outline

end Protobuf

import Mathlib.Logic.Equiv.Basic
import Protobuf.Proofs.Schema.Arena
import Protobuf.Proofs.Schema.Clashes
import Protobuf.Proofs.Schema.Visible

/-! Files in another order, under other numbers.

The same files in two orders have the same definitions under different numbers. A `Renumbering`
takes the numbers of one order to those of the other, and `Aligned` says that it does so for files,
messages and enums. Step by step, what linking computes is carried along: what names are declared
for, which files are visible, what a type name stands for, and so what a field is linked to
(`Aligned.field`). Where one order has no flaws, the other has none (`Aligned.exists_link`). -/
namespace Protobuf

/-! ### Numbers of a permuted list -/

/-- Keeps zero, and renumbers all after it. -/
def shift (σ : Equiv.Perm Nat) : Equiv.Perm Nat where
  toFun
    | 0 => 0
    | n + 1 => σ n + 1
  invFun
    | 0 => 0
    | n + 1 => σ.symm n + 1
  left_inv n := by cases n <;> simp
  right_inv n := by cases n <;> simp

/-- The members of a list that is put in another order get new numbers. -/
theorem exists_numbers_of_perm {α : Type} {l l' : List α} (h : l.Perm l') :
    ∃ σ : Equiv.Perm Nat, ∀ i, l'[σ i]? = l[i]? := by
  induction h with
  | nil => exact ⟨.refl Nat, fun _ => rfl⟩
  | cons x _ ih =>
    obtain ⟨σ, hσ⟩ := ih
    refine ⟨shift σ, fun i => ?_⟩
    cases i with
    | zero => rfl
    | succ i => exact hσ i
  | swap x y l =>
    refine ⟨Equiv.swap 0 1, fun i => ?_⟩
    match i with
    | 0 => rfl
    | 1 => rfl
    | i + 2 =>
      rw [Equiv.swap_apply_of_ne_of_ne (by omega) (by omega)]
      rfl
  | trans _ _ ih ih' =>
    obtain ⟨σ, hσ⟩ := ih
    obtain ⟨τ, hτ⟩ := ih'
    exact ⟨σ.trans τ, fun i => (hτ (σ i)).trans (hσ i)⟩

/-- New numbers for files, messages and enums. -/
structure Renumbering where
  file : Equiv.Perm Nat
  message : Equiv.Perm Nat
  enum : Equiv.Perm Nat

namespace Renumbering
variable (ρ : Renumbering)

def symm : Renumbering :=
  ⟨ρ.file.symm, ρ.message.symm, ρ.enum.symm⟩

/-- The new numbers of the definitions of one kind. -/
def on : Kind → Equiv.Perm Nat
  | .message => ρ.message
  | .enum => ρ.enum

def onDefinition : Definition → Definition
  | .message index => .message (ρ.message index)
  | .enum index => .enum (ρ.enum index)
  | .package => .package
  | .enumValue => .enumValue

def onType : FieldType → FieldType
  | .scalar type => .scalar type
  | .message index => .message (ρ.message index)
  | .enum index => .enum (ρ.enum index)

def onField (f : Field) : Field :=
  { f with type := ρ.onType f.type }

def onMessage (m : Message) : Message :=
  { m with
    file := ρ.file m.file
    parent := m.parent.map ρ.message
    fields := m.fields.map ρ.onField
    messages := m.messages.map ρ.message
    enums := m.enums.map ρ.enum }

def onEnum (e : Enum) : Enum :=
  { e with file := ρ.file e.file, parent := e.parent.map ρ.message }

def onFile (f : SchemaFile) : SchemaFile :=
  { f with messages := f.messages.map ρ.message, enums := f.enums.map ρ.enum }

theorem typeOf_onDefinition {d : Definition} {t : FieldType} (h : Linking.typeOf d = some t) :
    Linking.typeOf (ρ.onDefinition d) = some (ρ.onType t) := by
  cases d <;> cases h <;> rfl

theorem cardinality_onType (label : Option Decl.FieldLabel) (t : FieldType) :
    Linking.cardinality label (ρ.onType t) = Linking.cardinality label t := by
  cases t <;> rfl

theorem singularMessage?_onField (f : Field) :
    (ρ.onField f).singularMessage? = f.singularMessage?.map ρ.message := by
  unfold Field.singularMessage? Field.isRepeated onField
  cases f.type with
  | scalar type => rfl
  | enum index => rfl
  | message index =>
    dsimp only [onType]
    split <;> rfl

theorem isPackable_onType (c : Cardinality) (t : FieldType) :
    Linking.isPackable c (ρ.onType t) = Linking.isPackable c t := by
  cases t <;> rfl

end Renumbering

namespace Linking
open Outline (ofFiles keysOf nameKey messageKey enumKey)
open Visibility (ImportsFirst PassesOn Sees indexOf? visible file_unique indexOf?_eq_some_iff)

/-- Two orders of the same files, in both of which every file comes after its imports. -/
structure Reordered (files files' : List LoadedFile) : Prop where
  perm : files.Perm files'
  distinct : (files.map (·.source.name)).Nodup
  first : ImportsFirst files
  first' : ImportsFirst files'

theorem Reordered.symm {files files' : List LoadedFile} (h : Reordered files files') :
    Reordered files' files :=
  ⟨h.perm.symm, (h.perm.map _).nodup h.distinct, h.first', h.first⟩

/-- The numbers of one order are taken to those of the other. -/
structure Aligned (ρ : Renumbering) (files files' : List LoadedFile) : Prop where
  reordered : Reordered files files'
  lookup : ∀ k, files'[ρ.file k]? = files[k]?
  messages : ∀ i, (keysOf files').messages[ρ.message i]? = (keysOf files).messages[i]?
  enums : ∀ i, (keysOf files').enums[ρ.enum i]? = (keysOf files).enums[i]?

theorem exists_aligned {files files' : List LoadedFile} (h : Reordered files files') :
    ∃ ρ, Aligned ρ files files' := by
  have hkeys := Outline.keysOf_perm h.perm
  obtain ⟨file, hfile⟩ := exists_numbers_of_perm h.perm
  obtain ⟨message, hmessage⟩ := exists_numbers_of_perm hkeys.messages
  obtain ⟨enum, henum⟩ := exists_numbers_of_perm hkeys.enums
  exact ⟨⟨file, message, enum⟩, h, hfile, hmessage, henum⟩

/-- Without clashes, a full name is declared for one definition. -/
theorem declares_unique {files : List LoadedFile} (hfree : ClashFree files) {name : QualifiedName}
    {d d' : Definition} {file file' : Nat} (h : Declares files name d file)
    (h' : Declares files name d' file') : d = d' := by
  obtain ⟨entry, hentry, hd, _⟩ := get?_of_declares hfree h
  obtain ⟨entry', hentry', hd', _⟩ := get?_of_declares hfree h'
  cases hentry.symm.trans hentry'
  exact hd.symm.trans hd'

theorem place_unique {files : List LoadedFile} (hfree : ClashFree files) {kind : Kind} {i j : Nat}
    {a b : Place} (ha : ((ofFiles files).1.places kind)[i]? = some a)
    (hb : ((ofFiles files).1.places kind)[j]? = some b) (hname : a.fullName = b.fullName) : i = j :=
  Kind.definition_inj (declares_unique hfree ((declares_iff kind).mpr ⟨a, ha, hname, rfl⟩)
    ((declares_iff kind).mpr ⟨b, hb, rfl, rfl⟩))

namespace Aligned
variable {ρ : Renumbering} {files files' : List LoadedFile} {i j k file : Nat}
  {name scope : QualifiedName} {d : Definition}

theorem symm (h : Aligned ρ files files') : Aligned ρ.symm files' files where
  reordered := h.reordered.symm
  lookup k := by rw [← h.lookup, Renumbering.symm, Equiv.apply_symm_apply]
  messages i := by rw [← h.messages, Renumbering.symm, Equiv.apply_symm_apply]
  enums i := by rw [← h.enums, Renumbering.symm, Equiv.apply_symm_apply]

/-! ### Files, messages and enums -/

theorem file_eq (h : Aligned ρ files files') {f : LoadedFile} (hk : files[k]? = some f)
    (hj : files'[j]? = files[k]?) : j = ρ.file k :=
  file_unique h.reordered.symm.distinct (hj.trans hk) ((h.lookup k).trans hk) rfl

/-- A message is there under its new number, in the same file and as much nested. -/
theorem message (h : Aligned ρ files files') {m : MessageOutline}
    (hm : (ofFiles files).1.messages[i]? = some m) :
    ∃ m', (ofFiles files').1.messages[ρ.message i]? = some m' ∧ m'.decl = m.decl ∧
      m'.fullName = m.fullName ∧ m'.file = ρ.file m.file ∧
      m'.parent.isSome = m.parent.isSome := by
  have hkey := h.messages i
  simp only [keysOf, Outline.keys, List.getElem?_map, hm, Option.map_some] at hkey
  obtain ⟨m', hm', hsame⟩ := Option.map_eq_some_iff.mp hkey
  obtain ⟨hdecl, hname, hfile, hnested⟩ := DefinitionKey.mk.inj hsame
  obtain ⟨f, hf, _⟩ := Outline.ofFiles_declared files (List.mem_of_getElem? hm)
  exact ⟨m', hm', hdecl, hname, h.file_eq hf hfile, hnested⟩

theorem enum (h : Aligned ρ files files') {x : EnumOutline}
    (hx : (ofFiles files).1.enums[i]? = some x) :
    ∃ x', (ofFiles files').1.enums[ρ.enum i]? = some x' ∧ x'.decl = x.decl ∧
      x'.fullName = x.fullName ∧ x'.file = ρ.file x.file ∧
      x'.parent.isSome = x.parent.isSome := by
  have hkey := h.enums i
  simp only [keysOf, Outline.keys, List.getElem?_map, hx, Option.map_some] at hkey
  obtain ⟨x', hx', hsame⟩ := Option.map_eq_some_iff.mp hkey
  obtain ⟨hdecl, hname, hfile, hnested⟩ := DefinitionKey.mk.inj hsame
  have hlt := (Outline.ofFiles_inFiles files).enums x (List.mem_of_getElem? hx)
  exact ⟨x', hx', hdecl, hname, h.file_eq (List.getElem?_eq_getElem hlt) hfile, hnested⟩

/-- A definition stands in the same place under its new number. -/
theorem place (h : Aligned ρ files files') {kind : Kind} {d : Place}
    (hd : ((ofFiles files).1.places kind)[i]? = some d) :
    ∃ d', ((ofFiles files').1.places kind)[ρ.on kind i]? = some d' ∧ d'.fullName = d.fullName ∧
      d'.file = ρ.file d.file ∧ d'.parent.isSome = d.parent.isSome := by
  cases kind with
  | message =>
    obtain ⟨m, hm, rfl⟩ := Option.map_eq_some_iff.mp (List.getElem?_map ▸ hd)
    obtain ⟨m', hm', _, hsame⟩ := h.message hm
    exact ⟨m'.place, Outline.place_of_message hm', hsame⟩
  | enum =>
    obtain ⟨x, hx, rfl⟩ := Option.map_eq_some_iff.mp (List.getElem?_map ▸ hd)
    obtain ⟨x', hx', _, hsame⟩ := h.enum hx
    exact ⟨x'.place, Outline.place_of_enum hx', hsame⟩

/-! ### Names -/

theorem declares_numbered (h : Aligned ρ files files') (kind : Kind) {index : Nat}
    (hd : Declares files name (kind.definition index) file) :
    Declares files' name (kind.definition (ρ.on kind index)) (ρ.file file) := by
  obtain ⟨d, hplace, rfl, rfl⟩ := (declares_iff kind).mp hd
  obtain ⟨d', hd', hname, hfile, _⟩ := h.place hplace
  exact (declares_iff kind).mpr ⟨d', hd', hname, hfile⟩

/-- Packages and enum values have no numbers, and so are declared in either order. -/
theorem declares_unnumbered (h : Aligned ρ files files') (hd : Declares files name d file) :
    ∃ d', Declares files' name d' (ρ.file file) ∧ d'.unnumbered = d.unnumbered := by
  obtain ⟨entry, hentry, rfl, rfl, rfl⟩ := hd
  obtain ⟨f, hf⟩ := Outline.getElem?_file_of_name hentry
  have hkey := List.mem_map_of_mem (f := nameKey (files[·]?)) hentry
  obtain ⟨entry', hentry', hsame⟩ :=
    List.mem_map.mp ((Outline.keysOf_perm h.reordered.perm).names.mem_iff.mp hkey)
  obtain ⟨hname, hdefinition, hfile⟩ := NameKey.mk.inj hsame
  exact ⟨entry'.definition, ⟨entry', hentry', hname, rfl, h.file_eq hf hfile⟩, hdefinition⟩

/-- What is declared is declared under the new numbers. -/
theorem declares (h : Aligned ρ files files') (hd : Declares files name d file) :
    Declares files' name (ρ.onDefinition d) (ρ.file file) := by
  cases d with
  | message _ => exact h.declares_numbered .message hd
  | enum _ => exact h.declares_numbered .enum hd
  | package =>
    obtain ⟨d', hd', hsame⟩ := h.declares_unnumbered hd
    obtain rfl : d' = .package := by cases d' <;> cases hsame; rfl
    exact hd'
  | enumValue =>
    obtain ⟨d', hd', hsame⟩ := h.declares_unnumbered hd
    obtain rfl : d' = .enumValue := by cases d' <;> cases hsame; rfl
    exact hd'

theorem declared_iff (h : Aligned ρ files files') :
    (∃ d file, Declares files name d file) ↔ ∃ d file, Declares files' name d file :=
  ⟨fun ⟨_, _, hd⟩ => ⟨_, _, h.declares hd⟩, fun ⟨_, _, hd⟩ => ⟨_, _, h.symm.declares hd⟩⟩

theorem package_iff (h : Aligned ρ files files') :
    (∃ file, Declares files name .package file) ↔ ∃ file, Declares files' name .package file :=
  ⟨fun ⟨_, hd⟩ => ⟨_, h.declares hd⟩, fun ⟨_, hd⟩ => ⟨_, h.symm.declares hd⟩⟩

theorem decides_iff (h : Aligned ρ files files') (first : String) (rest : List String) :
    Decides files first rest scope ↔ Decides files' first rest scope := by
  rw [Decides, Decides, h.declared_iff, h.declared_iff, h.package_iff]

/-- A type name means the same full name in both orders. -/
theorem selects (h : Aligned ρ files files') {type : Decl.TypeRef} {full : QualifiedName}
    (hs : Selects files scope type full) : Selects files' scope type full := by
  cases hs with
  | absolute hdot => exact .absolute hdot
  | relative hdot hpre hdecides hinner =>
    exact .relative hdot hpre ((h.decides_iff _ _).mp hdecides) fun inner hin hlt hnot =>
      hinner inner hin hlt ((h.decides_iff _ _).mpr hnot)

/-! ### Visible files -/

theorem indexOf? (h : Aligned ρ files files') {name : String}
    (hj : Visibility.indexOf? files name = some j) :
    Visibility.indexOf? files' name = some (ρ.file j) := by
  obtain ⟨g, hg, hname⟩ := Visibility.getElem?_of_indexOf? hj
  exact (indexOf?_eq_some_iff h.reordered.symm.distinct).mpr ⟨g, (h.lookup j).trans hg, hname⟩

theorem passesOn (h : Aligned ρ files files') (hp : PassesOn files j k) :
    PassesOn files' (ρ.file j) (ρ.file k) := by
  obtain ⟨f, hf, name, hname, hindex⟩ := hp
  exact ⟨f, (h.lookup j).trans hf, name, hname, h.indexOf? hindex⟩

theorem sees (h : Aligned ρ files files') (hs : Sees files k j) :
    Sees files' (ρ.file k) (ρ.file j) := by
  rcases hs with rfl | ⟨f, hf, name, hname, b, hb, hreach⟩
  · exact .inl rfl
  · refine .inr ⟨f, (h.lookup k).trans hf, name, hname, ρ.file b, h.indexOf? hb, ?_⟩
    exact hreach.lift ρ.file fun _ _ => h.passesOn

theorem visible (h : Aligned ρ files files') (hk : k < files.length)
    (hj : j ∈ Visibility.visible files k) :
    ρ.file j ∈ Visibility.visible files' (ρ.file k) := by
  have hf := (h.lookup k).trans (List.getElem?_eq_getElem hk)
  have hfound : Visibility.FoundFirst files :=
    .of_importsFirst h.reordered.distinct h.reordered.first
  have hfound' : Visibility.FoundFirst files' :=
    .of_importsFirst h.reordered.symm.distinct h.reordered.first'
  rw [Visibility.mem_visible_iff hfound hk] at hj
  rw [Visibility.mem_visible_iff hfound' (List.getElem?_eq_some_iff.mp hf).1]
  exact h.sees hj

/-- A type name stands for the same, under its new number. -/
theorem standsFor (h : Aligned ρ files files') (hfile : file < files.length)
    {type : Decl.TypeRef} {t : FieldType} (hs : StandsFor files file scope type t) :
    StandsFor files' (ρ.file file) scope type (ρ.onType t) := by
  obtain ⟨full, d, owner, hselects, hdeclares, htype, hvisible⟩ := hs
  exact ⟨full, ρ.onDefinition d, ρ.file owner, h.selects hselects, h.declares hdeclares,
    ρ.typeOf_onDefinition htype, h.visible hfile hvisible⟩

/-! ### Fields -/

theorem fieldType (h : Aligned ρ files files') (hfree : ClashFree files)
    (hfile : file < files.length) {f : Decl.Field} {t : FieldType}
    (ht : (Linking.fieldType (contextOf files file) scope f).value = some t) :
    Linking.fieldType (contextOf files' (ρ.file file)) scope f = ⟨some (ρ.onType t), []⟩ := by
  cases htype : f.type with
  | scalar type =>
    simp only [Linking.fieldType, htype, Option.some.injEq] at ht ⊢
    subst ht
    rfl
  | named type =>
    have hstands := (fieldType_eq_some_iff hfree htype).mp ht
    exact fieldType_of_standsFor (clashFree_of_perm h.reordered.perm hfree) htype
      (h.standsFor hfile hstands)

/-- An enum has the same full name and values under its new number. -/
theorem enumsOf (h : Aligned ρ files files') :
    (((Linking.enumsOf files').map (·.2.value))[ρ.enum i]?).map
        (fun e => (e.fullName, e.values)) =
      (((Linking.enumsOf files).map (·.2.value))[i]?).map fun e => (e.fullName, e.values) := by
  have hkey := congrArg (Option.map fun key => (key.fullName, EnumRules.values key.decl))
    (h.enums i)
  simp only [keysOf, Outline.keys, Linking.enumsOf, checkEnums, List.getElem?_map,
    Option.map_map] at hkey ⊢
  exact hkey

theorem ofSetting (h : Aligned ρ files files') (c : Cardinality) (t : FieldType)
    (constant : Decl.Constant) :
    Default.ofSetting ((Linking.enumsOf files').map (·.2.value)) c (ρ.onType t) constant =
      Default.ofSetting ((Linking.enumsOf files).map (·.2.value)) c t constant := by
  cases t with
  | scalar type => rfl
  | message index => rfl
  | enum index =>
    have henum := h.enumsOf (i := index)
    simp only [Default.ofSetting, Renumbering.onType]
    generalize ((Linking.enumsOf files').map (·.2.value))[ρ.enum index]? = new at henum ⊢
    generalize ((Linking.enumsOf files).map (·.2.value))[index]? = old at henum ⊢
    cases old with
    | none =>
      obtain rfl := Option.map_eq_none_iff.mp henum
      rfl
    | some e =>
      obtain ⟨e', rfl, hsame⟩ := Option.map_eq_some_iff.mp henum
      obtain ⟨hname, hvalues⟩ := Prod.mk.inj hsame
      simp only [Default.ofEnum, hname, hvalues]

theorem default (h : Aligned ρ files files') (file file' : Nat) (f : Decl.Field) (c : Cardinality)
    (t : FieldType) : Linking.default (contextOf files' file') f c (ρ.onType t) =
      Linking.default (contextOf files file) f c t := by
  unfold Linking.default
  cases f.default? with
  | none => rfl
  | some setting =>
    have hsetting : Default.ofSetting (contextOf files' file').enums c (ρ.onType t) setting.value =
        Default.ofSetting (contextOf files file).enums c t setting.value := h.ofSetting ..
    simp only [hsetting]

/-- A field without flaws is linked to the same, under new numbers. -/
theorem field (h : Aligned ρ files files') (hfree : ClashFree files)
    (hfile : file < files.length) {f : Decl.Field} {g : Field}
    (hflaws : (Linking.field (contextOf files file) scope f).flaws = [])
    (hg : (Linking.field (contextOf files file) scope f).value = some g) :
    Linking.field (contextOf files' (ρ.file file)) scope f = ⟨some (ρ.onField g), []⟩ := by
  cases ht : (Linking.fieldType (contextOf files file) scope f).value with
  | none => simp [Linking.field, ht] at hg
  | some t =>
    cases hnumber : FieldRules.number? f.number with
    | none => simp [Linking.field, ht, hnumber] at hg
    | some number =>
      simp only [Linking.field, ht, hnumber, Option.some.injEq, List.append_eq_nil_iff] at hflaws hg
      subst hg
      simp only [Linking.field, h.fieldType hfree hfile ht, hnumber, ρ.cardinality_onType,
        ρ.isPackable_onType, h.default file, hflaws, List.append_nil]
      rfl

/-! ### Messages -/

theorem message_linked (h : Aligned ρ files files') (hfree : ClashFree files)
    {m m' : MessageOutline} (hm : m ∈ (ofFiles files).1.messages) (hdecl : m'.decl = m.decl)
    (hname : m'.fullName = m.fullName) (hfile : m'.file = ρ.file m.file)
    (hflaws : (Linking.message (contextOf files m.file) m).flaws = []) :
    (Linking.message (contextOf files' m'.file) m').flaws = [] ∧
      (Linking.message (contextOf files' m'.file) m').value.fields =
        (Linking.message (contextOf files m.file) m).value.fields.map ρ.onField := by
  obtain ⟨file, hlookup, _⟩ := Outline.ofFiles_declared files hm
  have hlt := (List.getElem?_eq_some_iff.mp hlookup).1
  have hfields : ∀ f ∈ m.decl.fields, ∃ g,
      (Linking.field (contextOf files m.file) m.fullName f).value = some g ∧
      Linking.field (contextOf files' (ρ.file m.file)) m.fullName f = ⟨some (ρ.onField g), []⟩ := by
    intro f hf
    obtain ⟨hnone, g, hg⟩ := exists_field hflaws hf
    exact ⟨g, hg, h.field hfree hlt hnone hg⟩
  simp only [Linking.message, hdecl, hname, hfile, List.filterMap_map, List.flatMap_map,
    List.append_eq_nil_iff] at hflaws ⊢
  refine ⟨⟨hflaws.1, List.flatMap_eq_nil_iff.mpr fun f hf => ?_⟩, ?_⟩
  · obtain ⟨g, _, hfield⟩ := hfields f hf
    rw [hfield]
  · rw [List.map_filterMap]
    refine List.filterMap_congr fun f hf => ?_
    obtain ⟨g, hg, hfield⟩ := hfields f hf
    simp only [Function.comp_apply, hfield, hg, Option.map_some]

theorem edition (h : Aligned ρ files files') (file : Nat) :
    Linking.edition files' (ρ.file file) = Linking.edition files file := by
  rw [Linking.edition, Linking.edition, h.lookup]

/-- Files that are linked in one order are linked in the other. -/
theorem exists_link (h : Aligned ρ files files') (hlink : ∃ s, link files = .ok s) :
    ∃ t, link files' = .ok t := by
  obtain ⟨hfree, henums, hmessages⟩ := exists_link_iff.mp hlink
  refine exists_link_iff.mpr ⟨clashFree_of_perm h.reordered.perm hfree, ?_, ?_⟩
  · intro x' hx'
    obtain ⟨i, hi⟩ := List.mem_iff_getElem?.mp hx'
    obtain ⟨x, hx, hdecl, _, hfile, _⟩ := h.symm.enum hi
    have hfile : x'.file = ρ.file x.file := by
      rw [hfile, Renumbering.symm, Equiv.apply_symm_apply]
    rw [hfile, h.edition, ← hdecl]
    exact henums x (List.mem_of_getElem? hx)
  · intro m' hm'
    obtain ⟨i, hi⟩ := List.mem_iff_getElem?.mp hm'
    obtain ⟨m, hm, hdecl, hname, hfile, _⟩ := h.symm.message hi
    have hfile : m'.file = ρ.file m.file := by
      rw [hfile, Renumbering.symm, Equiv.apply_symm_apply]
    have hmem := List.mem_of_getElem? hm
    exact (h.message_linked hfree hmem hdecl.symm hname.symm hfile (hmessages m hmem)).1

end Aligned

end Linking

end Protobuf

import Protobuf.Proofs.Schema.Arena
import Protobuf.Proofs.Source.Conformance

/-! What generation assumes of a schema.

The code for a field is chosen by its flags alone: packed fields are written in one run, boxed ones
are built behind a pointer, implicit ones are compared with zero, and a default is printed as a
value of the field's type. `Generable` says when each of these choices makes sense. It holds of
every schema that is linked from parsed files (`generable_of_link`): some of it is seen to by the
parser, which knows the language level, and some by the linker, which knows the types. -/
namespace Protobuf

/-- The least and the greatest number of an integer type. -/
def Scalar.bounds? : Scalar → Option (Int × Int)
  | int32 | sint32 | sfixed32 => some (-0x80000000, 0x7FFFFFFF)
  | int64 | sint64 | sfixed64 => some (-0x8000000000000000, 0x7FFFFFFFFFFFFFFF)
  | uint32 | fixed32 => some (0, 0xFFFFFFFF)
  | uint64 | fixed64 => some (0, 0xFFFFFFFFFFFFFFFF)
  | _ => none

/-- The number that is held in an integer type. -/
def ScalarValue.int? : ScalarValue → Option Int
  | i32 v => some v.toInt
  | i64 v => some v.toInt
  | u32 v => some v.toNat
  | u64 v => some v.toNat
  | _ => none

/-- The number that a literal stands for, with its sign. -/
def Decl.Constant.int? : Decl.Constant → Option Int
  | int negative magnitude =>
    some (if negative then -(magnitude.toNat : Int) else magnitude.toNat)
  | _ => none

/-- The last setting with this name. -/
def Decl.IsLastSetting (settings : List Decl.Setting) (name : String) (setting : Decl.Setting) :
    Prop :=
  setting.name = name ∧
    ∃ before after, settings = before ++ setting :: after ∧ ∀ other ∈ after, other.name ≠ name

/-- A value of a scalar type that a constant may be read as. Integers are read as they are, and lie
in the range of the type. -/
structure Scalar.Reads (type : Scalar) (c : Decl.Constant) (value : ScalarValue) : Prop where
  holds : type.Holds value
  int : ∀ {least greatest : Int}, type.bounds? = some (least, greatest) →
    ∃ n, c.int? = some n ∧ value.int? = some n ∧ least ≤ n ∧ n ≤ greatest

/-- A default that a constant may be read as. The default of an enum is the place of the value with
the name that the constant gives. -/
inductive Default.Fits (s : Schema) (c : Decl.Constant) : FieldType → Default → Prop where
  | scalar {type : Scalar} {value : ScalarValue} (h : type.Reads c value) :
      Fits s c (.scalar type) (.scalar value)
  | enum {index place : Nat} {e : Enum} {v : EnumValue} (he : s.enums[index]? = some e)
      (hv : e.values[place]? = some v) (hname : c = .ident v.name) :
      Fits s c (.enum index) (.enumValue place)

/-- What generation assumes of a field in a file of this level, declared as `d`. -/
structure Field.Generable (s : Schema) (e : Decl.Edition) (d : Decl.Field) (f : Field) : Prop where
  packed : f.packed = true → f.cardinality = .repeated ∧
    ((∃ index, f.type = .enum index) ∨
      ∃ type, f.type = .scalar type ∧ type ≠ .string ∧ type ≠ .bytes)
  boxed : f.boxed = true → f.cardinality ≠ .repeated ∧ ∃ index, f.type = .message index
  implicit : f.cardinality = .implicit → e = .proto3 ∧ ∀ index, f.type ≠ .message index
  required : f.cardinality = .required → e = .proto2
  default : ∀ value, f.default = some value → e = .proto2 ∧ f.cardinality ≠ .repeated ∧
    (∀ index, f.type ≠ .message index) ∧
    ∃ setting, Decl.IsLastSetting d.settings "default" setting ∧
      Default.Fits s setting.value f.type value
  default_kept : ∀ setting ∈ d.settings, setting.name = "default" → f.default.isSome = true

/-- What generation assumes of an enum in a file of this level. -/
structure Enum.Generable (e : Decl.Edition) (x : Enum) : Prop where
  nonempty : x.values ≠ []
  zero : e = .proto3 → ∃ first, x.values.head? = some first ∧ first.number = 0

/-- What generation assumes of a schema that was linked from these files. The fields of a message
are those declared under its full name. -/
structure Schema.Generable (files : List LoadedFile) (s : Schema) : Prop where
  fields : ∀ m ∈ s.messages, ∃ f entry path d, files[m.file]? = some f ∧
    s.files[m.file]? = some entry ∧ entry.edition = f.source.decl.edition ∧
    Decl.DeclaredAt f.source.decl.messages path d ∧
    m.fullName = f.source.package.getD [] ++ path ∧
    List.Forall₂ (fun decl g => g.name = decl.name.value ∧ g.Generable s entry.edition decl)
      d.fields m.fields
  enums : ∀ x ∈ s.enums, ∃ entry, s.files[x.file]? = some entry ∧ x.Generable entry.edition

/-! ### Defaults -/

namespace Default

theorem int?_i32 {n : Int} (hleast : -0x80000000 ≤ n) (hlt : n < 0x80000000) :
    (ScalarValue.i32 (Int32.ofInt n)).int? = some n :=
  congrArg some (Int32.toInt_ofInt_of_le (by omega) (by omega))

theorem int?_i64 {n : Int} (hleast : -0x8000000000000000 ≤ n) (hlt : n < 0x8000000000000000) :
    (ScalarValue.i64 (Int64.ofInt n)).int? = some n :=
  congrArg some (Int64.toInt_ofInt_of_le (by omega) (by omega))

theorem int?_u32 {n : Int} (hleast : 0 ≤ n) (hlt : n < 0x100000000) :
    (ScalarValue.u32 (UInt32.ofNat n.toNat)).int? = some n := by
  have hsize : n.toNat < UInt32.size := by
    rw [UInt32.size]
    omega
  rw [ScalarValue.int?, UInt32.toNat_ofNat_of_lt' hsize, Int.toNat_of_nonneg hleast]

theorem int?_u64 {n : Int} (hleast : 0 ≤ n) (hlt : n < 0x10000000000000000) :
    (ScalarValue.u64 (UInt64.ofNat n.toNat)).int? = some n := by
  have hsize : n.toNat < UInt64.size := by
    rw [UInt64.size]
    omega
  rw [ScalarValue.int?, UInt64.toNat_ofNat_of_lt' hsize, Int.toNat_of_nonneg hleast]

theorem of_ite_ok {α : Type} {condition : Prop} [Decidable condition] {a b : α} {reason : String}
    (h : (if condition then .ok a else .error reason : Except String α) = .ok b) :
    condition ∧ a = b := by
  split at h
  · cases h
    exact ⟨by assumption, rfl⟩
  · cases h

/-- What an integer is read as, in one of the integer types. -/
theorem ofInt_reads {type : Scalar} {n : Int} {value : ScalarValue} (h : ofInt type n = .ok value) :
    type.Holds value ∧ value.int? = some n ∧ ∀ {least greatest : Int},
      type.bounds? = some (least, greatest) → least ≤ n ∧ n ≤ greatest := by
  cases type with
  | int32 | sint32 | sfixed32 =>
    obtain ⟨⟨hleast, hlt⟩, rfl⟩ := of_ite_ok h
    refine ⟨trivial, int?_i32 hleast hlt, fun hbounds => ?_⟩
    cases hbounds
    omega
  | int64 | sint64 | sfixed64 =>
    obtain ⟨⟨hleast, hlt⟩, rfl⟩ := of_ite_ok h
    refine ⟨trivial, int?_i64 hleast hlt, fun hbounds => ?_⟩
    cases hbounds
    omega
  | uint32 | fixed32 =>
    obtain ⟨⟨hleast, hlt⟩, rfl⟩ := of_ite_ok h
    refine ⟨trivial, int?_u32 hleast hlt, fun hbounds => ?_⟩
    cases hbounds
    omega
  | uint64 | fixed64 =>
    obtain ⟨⟨hleast, hlt⟩, rfl⟩ := of_ite_ok h
    refine ⟨trivial, int?_u64 hleast hlt, fun hbounds => ?_⟩
    cases hbounds
    omega
  | _ => cases h

/-- A type without bounds has no integers to be read. -/
theorem reads_unbounded {type : Scalar} {c : Decl.Constant} {value : ScalarValue}
    (hbounds : type.bounds? = none) (hholds : type.Holds value) : type.Reads c value := by
  refine ⟨hholds, fun h => ?_⟩
  rw [hbounds] at h
  cases h

theorem ofConstant_reads {type : Scalar} {c : Decl.Constant} {value : ScalarValue}
    (h : ofConstant type c = .ok value) : type.Reads c value := by
  unfold ofConstant at h
  split at h
  · split at h
    · cases h
      exact reads_unbounded rfl trivial
    · cases h
  · split at h
    · split at h
      · cases h
        exact reads_unbounded rfl trivial
      · cases h
    · cases h
  · split at h
    · cases h
      exact reads_unbounded rfl trivial
    · cases h
  · split at h
    · cases h
      exact reads_unbounded rfl trivial
    · cases h
      exact reads_unbounded rfl trivial
    · cases h
  · split at h
    · cases h
      exact reads_unbounded rfl trivial
    · cases h
      exact reads_unbounded rfl trivial
    · cases h
  · split at h
    · obtain ⟨hholds, hvalue, hbounds⟩ := ofInt_reads h
      exact ⟨hholds, fun h => ⟨_, rfl, hvalue, hbounds h⟩⟩
    · cases h

theorem ofEnum_fits {s : Schema} {index : Nat} {e : Enum} {c : Decl.Constant} {d : Default}
    (he : s.enums[index]? = some e) (h : ofEnum e c = .ok d) : Fits s c (.enum index) d := by
  unfold ofEnum at h
  split at h
  · rename_i name
    split at h
    · rename_i place hplace
      cases h
      obtain ⟨hlt, hname, _⟩ := List.findIdx?_eq_some_iff_getElem.mp hplace
      refine .enum he (List.getElem?_eq_getElem hlt) ?_
      rw [beq_iff_eq.mp hname]
    · cases h
  · cases h

theorem ofSetting_fits {s : Schema} {cardinality : Cardinality} {type : FieldType}
    {c : Decl.Constant} {d : Default} (h : ofSetting s.enums cardinality type c = .ok d) :
    cardinality ≠ .repeated ∧ Fits s c type d := by
  unfold ofSetting at h
  split at h
  · cases h
  · refine ⟨by assumption, ?_⟩
    split at h
    · cases h
    · split at h
      · cases h
        exact .scalar (ofConstant_reads (by assumption))
      · cases h
    · split at h
      · exact ofEnum_fits (by assumption) h
      · cases h

end Default

namespace Linking
variable {files : List LoadedFile} {s : Schema} {e : Decl.Edition} {ctx : Context}
  {scope : QualifiedName} {d : Decl.Field} {g : Field}

/-! ### Fields -/

theorem implicit_of_cardinality {label : Option Decl.FieldLabel} {type : FieldType}
    (h : cardinality label type = .implicit) :
    label = none ∧ ∀ index, type ≠ .message index := by
  unfold cardinality at h
  split at h
  · cases h
  · cases h
  · cases h
  · refine ⟨rfl, ?_⟩
    rintro index rfl
    cases h

theorem required_of_cardinality {label : Option Decl.FieldLabel} {type : FieldType}
    (h : cardinality label type = .required) : label = some .required := by
  unfold cardinality at h
  split at h
  · cases h
  · rfl
  · cases h
  · split at h <;> cases h

theorem repeated_of_packable {c : Cardinality} {type : FieldType} (h : isPackable c type = true) :
    c = .repeated ∧ ((∃ index, type = .enum index) ∨
      ∃ scalar, type = .scalar scalar ∧ scalar ≠ .string ∧ scalar ≠ .bytes) := by
  obtain ⟨hrepeated, htype⟩ := Bool.and_eq_true_iff.mp h
  refine ⟨beq_iff_eq.mp hrepeated, ?_⟩
  cases type with
  | scalar scalar =>
    refine .inr ⟨scalar, rfl, ?_, ?_⟩
    · rintro rfl
      cases htype
    · rintro rfl
      cases htype
  | message index => cases htype
  | enum index => exact .inl ⟨index, rfl⟩

theorem proto2_of_default (hconforms : Grammar.fieldFaults e d = [])
    (hdefault : d.default?.isSome = true) : e = .proto2 := by
  cases e with
  | proto2 => rfl
  | proto3 =>
    obtain ⟨setting, hsetting⟩ := Option.isSome_iff_exists.mp hdefault
    have hfault := (List.append_eq_nil_iff.mp hconforms).2
    rw [hsetting] at hfault
    cases hfault

theorem isLastSetting_of_lastSetting? {settings : List Decl.Setting} {name : String}
    {setting : Decl.Setting} (h : Decl.lastSetting? settings name = some setting) :
    Decl.IsLastSetting settings name setting := by
  obtain ⟨hname, after, before, hreverse, hafter⟩ := List.find?_eq_some_iff_append.mp h
  refine ⟨beq_iff_eq.mp hname, before.reverse, after.reverse, ?_, ?_⟩
  · rw [← List.reverse_reverse settings, hreverse]
    simp
  · intro other hother hsame
    have hne := hafter other (List.mem_reverse.mp hother)
    simp [hsame] at hne

theorem default?_isSome {setting : Decl.Setting} (hmem : setting ∈ d.settings)
    (hname : setting.name = "default") : d.default?.isSome = true := by
  rw [Decl.Field.default?, Decl.lastSetting?, List.find?_isSome]
  exact ⟨setting, List.mem_reverse.mpr hmem, beq_iff_eq.mpr hname⟩

theorem exists_default {value : Default} {c : Cardinality} {type : FieldType}
    (h : (default ctx d c type).value = some value) :
    ∃ setting, d.default? = some setting ∧
      Default.ofSetting ctx.enums c type setting.value = .ok value := by
  unfold default at h
  split at h
  · cases h
  · rename_i setting hsetting
    split at h
    · cases h
      exact ⟨setting, hsetting, by assumption⟩
    · cases h

theorem default_isSome {c : Cardinality} {type : FieldType} (h : (default ctx d c type).flaws = [])
    (hdefault : d.default?.isSome = true) : (default ctx d c type).value.isSome = true := by
  unfold default at h ⊢
  split at h
  · rename_i hnone
    rw [hnone] at hdefault
    cases hdefault
  · split at h
    · simp only [Option.isSome_some]
    · cases h

theorem field_generable (h : (field ctx scope d).value = some g)
    (hflaws : (field ctx scope d).flaws = []) (hconforms : Grammar.fieldFaults e d = [])
    (henums : ctx.enums = s.enums) : g.Generable s e d := by
  obtain ⟨_, _, _, hcardinality, hpacked, hdefault, hsubset⟩ := eq_of_field h
  have hlabel := (Grammar.fieldFaults_eq_nil_iff.mp hconforms).1
  refine ⟨fun hp => ?_, fun hb => ?_, fun hi => ?_, fun hr => ?_, fun value hv => ?_,
    fun setting hmem hname => ?_⟩
  · exact repeated_of_packable (packable_of_packed (hpacked ▸ hp))
  · rw [(field_unboxed h).1] at hb
    cases hb
  · obtain ⟨hnone, htype⟩ := implicit_of_cardinality (hcardinality.symm.trans hi)
    rw [hnone] at hlabel
    cases e with
    | proto2 => cases hlabel
    | proto3 => exact ⟨rfl, htype⟩
  · have hrequired := required_of_cardinality (hcardinality.symm.trans hr)
    rw [hrequired] at hlabel
    cases e with
    | proto2 => rfl
    | proto3 => exact absurd rfl hlabel
  · obtain ⟨setting, hsetting, hvalue⟩ := exists_default (hdefault ▸ hv)
    obtain ⟨hsingular, hfits⟩ := Default.ofSetting_fits (henums ▸ hvalue)
    refine ⟨proto2_of_default hconforms (by rw [hsetting]; rfl), hsingular, ?_, setting,
      isLastSetting_of_lastSetting? hsetting, hfits⟩
    rintro index htype
    rw [htype] at hfits
    cases hfits
  · rw [hflaws, List.subset_nil] at hsubset
    rw [hdefault]
    exact default_isSome hsubset (default?_isSome hmem hname)

theorem boxField_generable (h : g.Generable s e d) (components : List Nat) (owner : Nat) :
    (boxField components owner g).Generable s e d := by
  unfold boxField
  split
  · rename_i target htarget
    obtain ⟨htype, hsingular⟩ := Field.singularMessage?_eq_some_iff.mp htarget
    exact ⟨h.packed, fun _ => ⟨hsingular, target, htype⟩, h.implicit, h.required, h.default,
      h.default_kept⟩
  · exact h

/-! ### Enums -/

theorem enum_generable {x : Enum} {decl : Decl.Enum} (hflaws : EnumRules.flaws e decl = [])
    (hvalues : List.Forall₂
      (fun v w => w.name = v.name.value ∧ v.number.toInt32? = some w.number) decl.values x.values) :
    x.Generable e := by
  have hsound := EnumRules.flaws_eq_nil_iff.mp hflaws
  cases hdecl : decl.values with
  | nil => exact absurd hdecl hsound.nonempty
  | cons v rest =>
    rw [hdecl] at hvalues
    cases hx : x.values with
    | nil => simp [hx] at hvalues
    | cons w others =>
      rw [hx] at hvalues
      obtain ⟨⟨_, hnumber⟩, _⟩ := List.forall₂_cons.mp hvalues
      refine ⟨by simp [hx], fun hedition => ⟨w, by simp [hx], ?_⟩⟩
      obtain ⟨first, hfirst, hzero⟩ := hsound.zeroFirst hedition
      rw [hdecl, List.head?_cons, Option.some.injEq] at hfirst
      rw [← Int32.toInt_inj, Decl.IntLit.toInt32?_eq_some_iff.mp hnumber, hfirst, hzero]
      rfl

/-! ### Schemas -/

theorem conforms_of_declaredAt {messages : List Decl.Message}
    (h : ∀ m ∈ messages, Grammar.Conforms e m) {path : List String} {m : Decl.Message}
    (hm : Decl.DeclaredAt messages path m) : Grammar.Conforms e m := by
  induction hm with
  | top hm => exact h _ hm
  | nested _ hinner ih => exact ih.messages hinner

theorem edition_eq {k : Nat} {f : LoadedFile} (hf : files[k]? = some f) :
    edition files k = f.source.decl.edition := by
  rw [edition, hf]

/-- The level of the file of a definition. -/
theorem entry_of_place (h : link files = .ok s) {place : Place} (hplace : place ∈ s.places) :
    ∃ f entry, files[place.file]? = some f ∧ s.files[place.file]? = some entry ∧
      entry.edition = f.source.decl.edition := by
  obtain ⟨entry, hentry, _⟩ := named_of_mem_places h hplace
  obtain ⟨f, hf, hat⟩ := fileAt_of_link h hentry
  exact ⟨f, entry, hf, hentry, hat.edition⟩

theorem enums_generable (h : link files = .ok s) {x : Enum} (hx : x ∈ s.enums) :
    ∃ entry, s.files[x.file]? = some entry ∧ x.Generable entry.edition := by
  have hplace : x.place ∈ s.places := List.mem_append_right _ (List.mem_map_of_mem hx)
  obtain ⟨f, entry, hf, hentry, hedition⟩ := entry_of_place h hplace
  obtain ⟨i, hi⟩ := List.mem_iff_getElem?.mp hx
  obtain ⟨o, ho, hframe⟩ := exists_of_map_eq (enumFrames_of_link h) hi
  have hfile : o.file = x.file := congrArg Enum.file hframe
  obtain ⟨x', hx', hvalues⟩ := values_of_link h ho
  cases hi.symm.trans hx'
  have hflaws := enum_flaws_of_link h ho
  rw [hfile, edition_eq (k := x.file) hf, ← hedition] at hflaws
  exact ⟨entry, hentry, enum_generable hflaws hvalues⟩

theorem fields_generable (hconforms : ∀ f ∈ files, Grammar.FileConforms f.source.decl)
    (h : link files = .ok s) {m : Message} (hm : m ∈ s.messages) :
    ∃ f entry path d, files[m.file]? = some f ∧ s.files[m.file]? = some entry ∧
      entry.edition = f.source.decl.edition ∧ Decl.DeclaredAt f.source.decl.messages path d ∧
      m.fullName = f.source.package.getD [] ++ path ∧
      List.Forall₂ (fun decl g => g.name = decl.name.value ∧ g.Generable s entry.edition decl)
        d.fields m.fields := by
  have hplace : m.place ∈ s.places := List.mem_append_left _ (List.mem_map_of_mem hm)
  obtain ⟨f, entry, hf, hentry, hedition⟩ := entry_of_place h hplace
  obtain ⟨i, hi⟩ := List.mem_iff_getElem?.mp hm
  obtain ⟨o, ho, hframe⟩ := exists_outline_of_link h hi
  have hfile : o.file = m.file := congrArg Message.file hframe
  have hname : o.fullName = m.fullName := congrArg Message.fullName hframe
  obtain ⟨f', hf', _, path, hpath, hdeclared⟩ :=
    Outline.ofFiles_declared files (List.mem_of_getElem? ho)
  rw [hfile] at hf'
  cases hf.symm.trans hf'
  obtain ⟨m', hm', hfields⟩ := fields_of_link h ho
  cases hi.symm.trans hm'
  have hmessage := conforms_of_declaredAt (hconforms f (List.mem_of_getElem? hf)) hdeclared
  have henums : (contextOf files o.file).enums = s.enums := by rw [(eq_of_link h).1]; rfl
  refine ⟨f, entry, path, o.decl, hf, hentry, hedition, hdeclared, hname ▸ hpath, ?_⟩
  have hall : ∀ d ∈ o.decl.fields, (field (contextOf files o.file) o.fullName d).flaws = [] ∧
      Grammar.fieldFaults entry.edition d = [] := fun d hd =>
    ⟨(exists_field (message_flaws_of_link h ho) hd).1, hedition ▸ hmessage.fields hd⟩
  refine ((List.forall₂_and_left ..).mpr ⟨hall, hfields⟩).imp ?_
  rintro d _ ⟨⟨hflaws, hd⟩, linked, hlinked, rfl⟩
  rw [boxField_name]
  exact ⟨(eq_of_field hlinked).2.2.1,
    boxField_generable (field_generable hlinked hflaws hd henums) _ _⟩

/-- **A schema linked from parsed files is as generation assumes it to be**: what is packed, boxed,
implicit, required or has a default may be so at the level of its file and for its type; a default
is what its declaration says, read as a value of the type; and enums have values, of which the first
is zero at the newer level. -/
theorem generable_of_link
    (hparsed : ∀ f ∈ files, SourceFile.ofText f.source.name f.source.path f.source.text =
      .ok f.source) (h : link files = .ok s) : s.Generable files := by
  have hconforms : ∀ f ∈ files, Grammar.FileConforms f.source.decl := by
    intro f hf
    have hparse := hparsed f hf
    unfold SourceFile.ofText at hparse
    split at hparse
    · rename_i decl hdecl
      rw [← Except.ok.inj hparse]
      exact Grammar.conforms_of_parse hdecl
    · cases hparse
  exact ⟨fun m hm => fields_generable hconforms h hm, fun x hx => enums_generable h hx⟩

theorem link_of_toOption {files : List LoadedFile} {s : Schema}
    (h : (link files).toOption = some s) : link files = .ok s := by
  cases hlink : link files with
  | error e =>
    rw [hlink] at h
    cases h
  | ok t =>
    rw [hlink] at h
    exact congrArg Except.ok (Option.some.inj h)

end Linking

/-! ### A gauge -/

namespace Gauge

def text : String :=
  "message Gauge \x7b enum Unit \x7b MM=0; IN=1; \x7d optional Unit unit=1 [default=IN]; " ++
  "required sint32 off=2 [default=7, default=-5]; \x7d"

def source : SourceFile :=
  match SourceFile.ofText "gauge.proto" none text with
  | .ok f => f
  | .error _ => Inhabited.default

def files : List LoadedFile :=
  [⟨source, true⟩]

def schema : Schema :=
  { files := [⟨"gauge.proto", none, .proto2, [0], [], true⟩]
    messages :=
      [⟨"Gauge", ["Gauge"], 0, none,
        [⟨"unit", 1, .optional, .enum 0, false, some (.enumValue 1), false⟩,
          ⟨"off", 2, .required, .scalar .sint32, false, some (.scalar (.i32 (-5))), false⟩],
        [], [0]⟩]
    enums := [⟨"Unit", ["Gauge", "Unit"], 0, some 0, [⟨"MM", 0⟩, ⟨"IN", 1⟩]⟩] }

theorem source_parsed : SourceFile.ofText source.name source.path source.text = .ok source := by
  have hfaults : (Grammar.read text).2 = [] := by decide +kernel
  obtain ⟨decl, hdecl⟩ := (Grammar.exists_parse_iff "gauge.proto" text).mpr hfaults
  have htext : SourceFile.ofText "gauge.proto" none text =
      .ok ⟨"gauge.proto", none, text, decl⟩ := by
    rw [SourceFile.ofText, hdecl]
  have hsource : source = ⟨"gauge.proto", none, text, decl⟩ := by
    unfold source
    rw [htext]
  rw [hsource]
  exact htext

theorem files_parsed : ∀ f ∈ files,
    SourceFile.ofText f.source.name f.source.path f.source.text = .ok f.source := by
  intro f hf
  rw [List.mem_singleton.mp hf]
  dsimp only
  exact source_parsed

theorem link_files : Linking.link files = .ok schema :=
  Linking.link_of_toOption (by decide +kernel)

end Gauge

namespace Linking

/-- The offset has the last default that is declared for it, with its sign, and the unit the place
of the value that is named. -/
theorem generable_of_link_gauge :
    (∀ f ∈ Gauge.files, SourceFile.ofText f.source.name f.source.path f.source.text =
      .ok f.source) ∧ link Gauge.files = .ok Gauge.schema ∧ Gauge.schema.Generable Gauge.files :=
  ⟨Gauge.files_parsed, Gauge.link_files, generable_of_link Gauge.files_parsed Gauge.link_files⟩

end Linking

end Protobuf

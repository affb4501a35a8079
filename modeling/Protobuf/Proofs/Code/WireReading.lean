import Protobuf.Proofs.Code.EnumConversions
import Protobuf.Proofs.Code.WireWriting

/-! Reading messages by their code.

The arm for a field reads into its value what is read into that field of a record (`runArm_armOf`).
So each step of reading by the code is one of decoding, seen through the struct, and the two go in
step to the end (`mergeNext_inStep`), with the messages inside others read alike by induction on the
levels that are allowed. The code of a linked schema reads as the methods for its fields
(`implements_of_link`), hence running it is encoding, decoding and checking (`methods_agree`). -/
namespace Protobuf

namespace MessageType
open Code EnumType Record

section
variable {p : Program} {s : Schema} {type : Nat} {m : Message} {f : Field} {record : Record}

/-! ### Defaults -/

theorem defaultValue?_typeName (type : Scalar) :
    defaultValue? none (Literal.typeName type) = some (.scalar type.codec.zero) := by
  cases type <;> rfl

theorem defaultValue?_list (type : Scalar) :
    defaultValue? none ("::std::vec::Vec<" ++ Literal.typeName type ++ ">") =
      some (.scalars []) := by
  cases type <;> rfl

theorem defaultValue?_messages {storage : String} (h : isOptionType storage = false) (index : Nat)
    {type : String} (hlist : storage = "::std::vec::Vec<" ++ type ++ ">") :
    defaultValue? (some index) storage = some (.messages []) := by
  rw [defaultValue?, h, hlist, String.append_assoc, behind?_eq]
  rfl

theorem defaultValue?_storage (hf : f.WellFormed) (s : Schema) (home : ModulePath) :
    defaultValue? f.type.message? (FieldCode.ofField s home f).storage = some f.unset := by
  have hoption := isOptionType_storage hf s home
  cases hcard : f.cardinality with
  | repeated =>
    have hstorage : (FieldCode.ofField s home f).storage =
        "::std::vec::Vec<" ++ (FieldCode.ofField s home f).type ++ ">" := by
      rw [FieldCode.storage, field_ofField, hcard]
    rw [Field.isOptional, hcard] at hoption
    rw [Field.unset, hcard]
    cases htype : f.type with
    | message index => exact defaultValue?_messages hoption index hstorage
    | scalar type =>
      rw [hstorage, FieldCode.ofField, htype]
      exact defaultValue?_list type
    | enum index =>
      rw [hstorage, FieldCode.ofField, htype]
      exact defaultValue?_list .int32
  | implicit =>
    have hstorage : (FieldCode.ofField s home f).storage = (FieldCode.ofField s home f).type := by
      rw [FieldCode.storage, field_ofField, hcard]
    have hmessage := hf.presence hcard
    rw [hstorage, Field.unset, hcard]
    cases htype : f.type with
    | message index => simp [htype, FieldType.isMessage] at hmessage
    | scalar type =>
      rw [FieldCode.ofField, htype]
      exact defaultValue?_typeName type
    | enum index =>
      rw [FieldCode.ofField, htype]
      exact defaultValue?_typeName .int32
  | _ =>
    rw [Field.isOptional, hcard] at hoption
    rw [defaultValue?, hoption, Field.unset, hcard]
    rfl

/-- **A new message has every field unset.** -/
theorem Program.default?_eq (hp : p.Implements s) (hm : s.messages[type]? = some m) :
    p.default? type = some (s.unsetRecord type) := by
  have hfields : s.fields type = m.fields := by rw [Schema.fields, hm]
  rw [Program.default?, hp.methods hm, Option.bind_some, fields_wireMethods, List.mapM_map,
    Schema.unsetRecord, hfields]
  refine mapM_eq_some fun f hf => ?_
  rw [← hfields] at hf
  rw [Function.comp_apply, hp.held hf]
  exact defaultValue?_storage (hp.wellFormed.field hf) s _

/-! ### Reading -/

/-- Messages inside others are read alike. -/
def ReadsAlike (s : Schema) (reads : Reads) (nested : Nested) : Prop :=
  ∀ ⦃type : Nat⦄ ⦃m : Message⦄ ⦃record : Record⦄, s.messages[type]? = some m →
    HasType s type record → ∀ bytes, reads type record bytes = (nested type record bytes).map some

section
variable {reads : Reads} {nested : Nested} {value : FieldValue}

theorem opened_present (target : Target) (default : FieldValue) (h : value.isAbsent = false) :
    target.opened default value = value := by
  cases target with
  | field ident => rfl
  | inserted ident => rw [Target.opened, h, if_neg Bool.false_ne_true]

theorem opened_absent (hfits : FitsField s f .absent) (default : FieldValue) :
    (armOf f).target.opened default .absent = default := by
  rcases hfits with hcard | hcard <;> rw [armOf, hcard] <;> rfl

theorem readScalar_armOf (hfits : FitsField s f value) (hmessage : f.type.isMessage = false)
    (wireType : WireType) (bytes : Bytes) :
    (armOf f).readScalar f.type.codec wireType value bytes =
      (mergeValue s nested f wireType value bytes).map some := by
  have hextent : (armOf f).extent = if f.isRepeated then .repeated else .one := rfl
  rw [mergeValue_scalar hmessage, Arm.readScalar, hextent]
  cases value with
  | absent =>
    have hsingle : f.isRepeated = false := by
      rcases hfits with h | h <;> simp [Field.isRepeated, h]
    rw [opened_absent hfits, hsingle]
    rfl
  | scalar v =>
    have hsingle : f.isRepeated = false := by simp [Field.isRepeated, hfits.1]
    rw [opened_present _ _ rfl, hsingle]
    rfl
  | scalars values =>
    have hrepeated : f.isRepeated = true := by simp [Field.isRepeated, hfits.1]
    rw [opened_present _ _ rfl, hrepeated]
    rfl
  | _ => simp [FitsField, hmessage] at hfits

theorem readInto_eq {index : Nat} {read : Record → Bytes → Merged (Option Record)} {bytes : Bytes}
    (h : read (value.toRecord (s.unsetRecord index)) bytes =
      (nested index (value.toRecord (s.unsetRecord index)) bytes).map some) (wireType : WireType) :
    readInto read wireType (value.toRecord (s.unsetRecord index)) bytes =
      (mergeMessage s nested index wireType value bytes).map some := by
  rw [readInto, mergeMessage, h]
  cases checkWireType .lengthDelimited wireType <;> rfl

theorem readBehind_eq {index : Nat} {read : Record → Bytes → Merged (Option Record)}
    {bytes : Bytes} (h : read (s.unsetRecord index) bytes =
      (nested index (s.unsetRecord index) bytes).map some) (wireType : WireType)
    (value : FieldValue) :
    readBehind read (s.unsetRecord index) wireType value.toRecords bytes =
      (appendMessage s nested index wireType value bytes).map some := by
  rw [readBehind, appendMessage, h]
  cases checkWireType .lengthDelimited wireType with
  | error e => rfl
  | ok found =>
    obtain ⟨record, rest⟩ := nested index (s.unsetRecord index) bytes
    cases rest <;> rfl

theorem readMessage_armOf (hs : s.WellFormed) (hr : ReadsAlike s reads nested) {index : Nat}
    (hm : s.messages[index]? = some m) (hfits : FitsField s f value)
    (htype : f.type = .message index) (wireType : WireType) (bytes : Bytes) :
    (armOf f).readMessage (reads index) (s.unsetRecord index) wireType value bytes =
      (mergeValue s nested f wireType value bytes).map some := by
  have hextent : (armOf f).extent = if f.isRepeated then .repeated else .one := rfl
  have hinto := hr hm (toRecord_hasType hs htype hfits) bytes
  unfold mergeValue Arm.readMessage
  simp only [htype, hextent]
  cases value with
  | absent =>
    have hsingle : f.isRepeated = false := by
      rcases hfits with h | h <;> simp [Field.isRepeated, h]
    rw [opened_absent hfits, hsingle]
    exact readInto_eq hinto wireType
  | message record =>
    have hsingle : f.isRepeated = false := by simp [Field.isRepeated, hfits.1]
    rw [opened_present _ _ rfl, hsingle]
    exact readInto_eq hinto wireType
  | messages records =>
    have hrepeated : f.isRepeated = true := by simp [Field.isRepeated, hfits.1]
    rw [opened_present _ _ rfl, hrepeated]
    exact readBehind_eq (hr hm (unset_hasType hs index) bytes) wireType (.messages records)
  | scalar v =>
    have hscalar := FieldType.isMessage_of_holds hfits.2
    simp [htype, FieldType.isMessage] at hscalar
  | scalars values => simp [FitsField, htype, FieldType.isMessage] at hfits

theorem runArm_message {a : Arm} (hcodec : a.codec.codec? = none) {default : Record}
    (hdefault : p.default? type = some default) (wireType : WireType) (value : FieldValue)
    (bytes : Bytes) : p.runArm reads (some type) a wireType value bytes =
      a.readMessage (reads type) default wireType value bytes := by
  unfold Program.runArm
  rw [hcodec]
  dsimp only
  rw [hdefault]

theorem runArm_armOf (hp : p.Implements s) (hr : ReadsAlike s reads nested)
    (hf : f ∈ s.fields type) (hfits : FitsField s f value) (wireType : WireType) (bytes : Bytes) :
    p.runArm reads f.type.message? (armOf f) wireType value bytes =
      (mergeValue s nested f wireType value bytes).map some := by
  have hcodec : (armOf f).codec = .ofType f.type := rfl
  cases hmessage : f.type.isMessage with
  | false =>
    unfold Program.runArm
    rw [hcodec, codec?_ofType hmessage]
    exact readScalar_armOf hfits hmessage wireType bytes
  | true =>
    obtain ⟨index, htype⟩ := exists_message_type hmessage
    obtain ⟨m, hm⟩ := hp.inside hf htype
    rw [htype, FieldType.message?, runArm_message (by rw [hcodec, htype]; rfl)
      (Program.default?_eq hp hm)]
    exact readMessage_armOf hp.wellFormed hr hm hfits htype wireType bytes

theorem isInserted_armOf (f : Field) : (armOf f).target.isInserted = f.isOptional := by
  unfold armOf Field.isOptional
  cases f.cardinality <;> rfl

/-- A field is found by the arm for its number, and the same is read into it. -/
theorem Program.mergeField_eq (hp : p.Implements s) (hr : ReadsAlike s reads nested)
    (hm : s.messages[type]? = some m) (hfits : HasType s type record) (budget number : Nat)
    (wireType : WireType) (bytes : Bytes) :
    p.mergeField reads budget type record number wireType bytes =
      (mergeFieldWith s nested budget type record number wireType bytes).map some := by
  have hfields : m.fields = s.fields type := by rw [Schema.fields, hm]
  have hfind : (p.methods type).map (·.merge.find? (·.number == number)) =
      some (((s.fields type).find? (·.number == number)).map armOf) := by
    rw [hp.methods hm, Option.map_some, wireMethods, hfields, List.find?_map]
    rfl
  rw [Program.mergeField, hfind, mergeFieldWith, List.find?_eq_bind_findIdx?_getElem?]
  cases hindex : (s.fields type).findIdx? (·.number == number) with
  | none => rfl
  | some i =>
    obtain ⟨hi, -⟩ := List.findIdx?_eq_some_iff_getElem.mp hindex
    obtain ⟨f, hf⟩ : ∃ f, (s.fields type)[i]? = some f := ⟨_, List.getElem?_eq_getElem hi⟩
    obtain ⟨value, hvalue⟩ : ∃ value, record[i]? = some value :=
      ⟨_, List.getElem?_eq_getElem (hfits.length_eq ▸ hi)⟩
    have hplace : p.place? type (armOf f).target.ident = some (i, f.isOptional) := by
      rw [ident_armOf]
      exact place?_field hp hm hf
    have hheld : p.held type (armOf f).target.ident = f.type.message? := by
      rw [ident_armOf]
      exact hp.held (List.mem_of_getElem? hf)
    simp only [Option.bind_some, hf, hvalue, Option.map_some, hplace, hheld, isInserted_armOf,
      beq_self_eq_true]
    rw [runArm_armOf hp hr (List.mem_of_getElem? hf) (hfits.field hf hvalue)]
    rfl

theorem mergeNext_inStep (hp : p.Implements s) (hr : ReadsAlike s reads nested)
    (htyped : NestedTyped s nested) (hm : s.messages[type]? = some m) (budget : Nat) :
    Delimited.InStep some (HasType s type) (mergeNextWith s nested budget type)
      (p.mergeNext reads budget type) where
  alike hfits bytes := by
    unfold mergeNextWith Program.mergeNext
    cases Key.decode bytes with
    | error e => rfl
    | ok read => exact Program.mergeField_eq hp hr hm hfits budget read.1.1 read.1.2 read.2
  keeps hfits hstep := mergeNextWith_hasType hp.wellFormed htyped hfits hstep

theorem mergeNested_alike (hp : p.Implements s) (budget : Nat) :
    ReadsAlike s (p.mergeNested budget) (mergeNested s budget) := by
  induction budget with
  | zero =>
    intro type m record hm hfits bytes
    rfl
  | succ budget ih =>
    intro type m record hm hfits bytes
    exact (mergeNext_inStep hp ih (nestedTyped hp.wellFormed budget) hm budget).mergeDelimited
      hfits bytes

/-- **The code reads what decoding reads**, and fails where it fails. -/
theorem Program.merge_eq (hp : p.Implements s) (hm : s.messages[type]? = some m)
    (hfits : HasType s type record) (bytes : Bytes) :
    p.merge type record bytes = (Record.merge s type record bytes).map some :=
  (mergeNext_inStep hp (mergeNested_alike hp recursionLimit)
    (nestedTyped hp.wellFormed recursionLimit) hm recursionLimit).mergeWhile 0 hfits bytes

end

end

/-! ### Linked schemas -/

/-- The program that the code of a schema reads as. What type a field holds is taken from the
schema. -/
def Program.ofSchema (s : Schema) : Program where
  methods type := (s.messages[type]?).bind fun m =>
    WireMethods.read (Ident.escape m.name) (MessageType.code s type)
  held type ident := ((s.fields type).find? (Ident.field ·.name == ident)).bind (·.type.message?)

theorem exists_code_eq {s : Schema} {type : Nat} {m : Message} (hm : s.messages[type]? = some m) :
    ∃ rest, MessageType.code s type = ownCode s m ++ rest := by
  have hlength := (List.getElem?_eq_some_iff.mp hm).1
  obtain ⟨depth, hdepth⟩ := Nat.exists_eq_add_one_of_ne_zero (Nat.ne_zero_of_lt hlength)
  exact ⟨_, by rw [MessageType.code, hdepth, codeUpTo, hm]⟩

end MessageType

namespace Linking
open MessageType Record
variable {files : List LoadedFile} {s : Schema}

/-- The code of a linked schema reads as the methods for its fields. -/
theorem implements_of_link (hparsed : ∀ f ∈ files,
    SourceFile.ofText f.source.name f.source.path f.source.text = .ok f.source)
    (h : link files = .ok s) : (Program.ofSchema s).Implements s := by
  have hplain := plain_of_parsed hparsed
  have hmessage {type : Nat} {f : Field} (hf : f ∈ s.fields type) :
      ∃ m ∈ s.messages, f ∈ m.fields := by
    unfold Schema.fields at hf
    split at hf
    · exact ⟨_, List.mem_of_getElem? ‹_›, hf⟩
    · cases hf
  have hidents (type : Nat) : ((s.fields type).map (Ident.field ·.name)).Nodup := by
    unfold Schema.fields
    split
    · exact fieldIdents_nodup h (List.mem_of_getElem? ‹_›)
    · exact List.nodup_nil
  refine ⟨wellFormed_of_link h, fun {type m} hm => ?_, fun {type f} hf => ?_, hidents,
    fun {type index f} hf htype => ?_⟩
  · obtain ⟨rest, hcode⟩ := exists_code_eq hm
    show (s.messages[type]?).bind _ = _
    rw [hm, Option.bind_some, hcode]
    exact read_ownCode (plain_of_declares hplain (declares_of_link h (place_of_message hm))).parts
      (fieldNames_plain hplain h (List.mem_of_getElem? hm)) rest
  · obtain ⟨i, hi⟩ := List.getElem?_of_mem hf
    show ((s.fields type).find? _).bind _ = _
    rw [List.find?_eq_bind_findIdx?_getElem?, findIdx?_key (List.pairwise_map.mp (hidents type)) hi,
      Option.bind_some, hi, Option.bind_some]
  · obtain ⟨m, hm, hf⟩ := hmessage hf
    exact ⟨_, List.getElem?_eq_getElem (message_type_lt h hm hf htype)⟩

/-- **The code of message types does what is done with records.** The methods of a message type of a
linked schema, read back from its code and run on a value of that type, compute its length, write
its bytes, find the required field that is missing first and read any bytes into it, with the same
result at every depth and with the same failure. A new message has all fields unset. -/
theorem methods_agree (hparsed : ∀ f ∈ files,
    SourceFile.ofText f.source.name f.source.path f.source.text = .ok f.source)
    (h : link files = .ok s) {type : Nat} {m : Message} (hm : s.messages[type]? = some m)
    {record : Record} (hfits : HasType s type record) :
    (∀ levels, depth record < levels →
      (Program.ofSchema s).length levels type record = some (encodedLen s type record) ∧
      (Program.ofSchema s).encode levels type record = some (encode s type record) ∧
      (Program.ofSchema s).check levels type record = some (check s type record)) ∧
    (Program.ofSchema s).default? type = some (s.unsetRecord type) ∧
    ∀ bytes, (Program.ofSchema s).merge type record bytes =
      (merge s type record bytes).map some := by
  have hp := implements_of_link hparsed h
  refine ⟨fun levels hdepth => ?_, Program.default?_eq hp hm, Program.merge_eq hp hm hfits⟩
  have hwithin : Within s levels type record := ⟨⟨m, hm⟩, hfits, hdepth⟩
  exact ⟨Program.length_eq hp hwithin, Program.encode_eq hp hwithin, Program.check_eq hp hwithin⟩

end Linking

/-! ### A gauge -/

namespace Gauge

/-- An offset without a unit. -/
def reading : Record :=
  [.absent, .scalar (.i32 (-5))]

theorem reading_hasType : Record.HasType schema 0 reading :=
  ⟨.inl rfl, ⟨by decide, trivial⟩, rfl⟩

end Gauge

namespace Linking
open MessageType Record

/-- The code of the gauge measures a key and the zigzag form of the offset and finds nothing
missing, and in a new gauge both fields are unset. -/
theorem methods_agree_gauge :
    link Gauge.files = .ok Gauge.schema ∧ HasType Gauge.schema 0 Gauge.reading ∧
      (Program.ofSchema Gauge.schema).length 2 0 Gauge.reading = some 2 ∧
      (Program.ofSchema Gauge.schema).check 2 0 Gauge.reading = some (.ok ()) ∧
      (Program.ofSchema Gauge.schema).default? 0 = some [.absent, .absent] := by
  obtain ⟨hwriting, hdefault, _⟩ :=
    methods_agree Gauge.files_parsed Gauge.link_files rfl Gauge.reading_hasType
  obtain ⟨hlength, _, hcheck⟩ := hwriting 2 (by decide)
  exact ⟨Gauge.link_files, Gauge.reading_hasType, hlength, hcheck, hdefault⟩

end Linking

end Protobuf

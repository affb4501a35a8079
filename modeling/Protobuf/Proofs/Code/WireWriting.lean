import Protobuf.Proofs.Code.WireProgram

/-! Writing and checking messages by their code.

The call for a field makes of its value what is made of that field of a record (`run_statementOf`),
and the checks for a field find what is missing in it (`run_checksOf`). A struct has each field
under a name of its own, so that the methods of a type do what is done with a record of that type,
if those of the messages in it do (`runStatements_fields`, `inSequence_fields`). By induction on the
levels of messages it is so at every depth. -/
namespace Protobuf

/-! ### Records -/

namespace Record

theorem lenOfAll_eq (s : Schema) (f : Field) (records : List Record) :
    lenOfAll s f records = (records.map fun record =>
      delimitedLen f.number (lenOf s (s.fieldsInside f) record)).sum := by
  induction records with
  | nil => rfl
  | cons record rest ih => rw [lenOfAll, ih, List.map_cons, List.sum_cons]

/-- The fields with their values, in the order of their numbers. -/
def sortedValues (fields : List Field) (record : Record) : List (Field × FieldValue) :=
  (fields.zip record).mergeSort fun a b => a.1.number ≤ b.1.number

theorem mem_sortedValues {fields : List Field} {record : Record} {x : Field × FieldValue} :
    x ∈ sortedValues fields record ↔ ∃ i : Nat, fields[i]? = some x.1 ∧ record[i]? = some x.2 := by
  rw [sortedValues, (List.mergeSort_perm ..).mem_iff, List.mem_iff_getElem?]
  simp only [List.getElem?_zip_eq_some]

theorem encodedLen_sorted (s : Schema) (type : Nat) (record : Record) : encodedLen s type record =
    ((sortedValues (s.fields type) record).map fun x => fieldLen s x.1 x.2).sum := by
  rw [encodedLen, lenOf_eq]
  exact (((List.mergeSort_perm ..).map _).sum_nat).symm

theorem encode_sorted (s : Schema) (type : Nat) (record : Record) : encode s type record =
    ((sortedValues (s.fields type) record).map fun x => encodeField s x.1 x.2).flatten := by
  have hsort : (sortedValues (s.fields type) record).map
        (fun x => (x.1.number, encodeField s x.1 x.2)) =
      (parts s (s.fields type) record).mergeSort fun a b => a.1 ≤ b.1 := by
    rw [parts_eq]
    exact List.map_mergeSort fun a _ b _ => rfl
  rw [encode, inOrder, ← hsort, List.flatMap_map, List.flatMap_def]

section
variable {s : Schema} {f : Field} {value : FieldValue} {index : Nat} {inner : Record}

/-- The messages in a field are values of the type that it holds. -/
theorem hasType_of_mem (h : FitsField s f value) (htype : f.type = .message index)
    (hinner : inner ∈ value.records) : HasType s index inner := by
  rw [HasType, ← fieldsInside_eq htype]
  cases value with
  | message record =>
    rw [List.mem_singleton.mp hinner]
    exact h.2.2
  | messages records => exact fitEach_iff.mp h.2.2 inner hinner
  | _ => cases hinner

theorem depth_lt_of_mem (hinner : inner ∈ value.records) : depth inner < valueDepth value := by
  cases value with
  | message record =>
    rw [List.mem_singleton.mp hinner]
    exact Nat.lt_succ_self _
  | messages records =>
    have hrecords : inner ∈ records := hinner
    rw [valueDepth]
    clear hinner
    induction records with
    | nil => cases hrecords
    | cons first rest ih =>
      rw [depthOfEach]
      rcases List.mem_cons.mp hrecords with rfl | hrest
      · exact Nat.lt_of_succ_le (Nat.le_max_left ..)
      · exact Nat.lt_of_lt_of_le (ih hrest) (Nat.le_max_right ..)
  | _ => cases hinner

theorem checkFields_inside (htype : f.type = .message index) (record : Record) :
    checkFields s (s.nameInside f) (s.fieldsInside f) record = check s index record := by
  rw [check, fieldsInside_eq htype, Schema.nameInside, htype]

end

end Record

namespace MessageType
open Code EnumType Record

variable {α : Type}

/-! ### Calls for fields -/

/-- A field of the struct has this value. -/
structure Scope.Shows (scope : Scope) (f : Field) (value : FieldValue) : Prop where
  option : f.isOptional = true → scope.option (Ident.field f.name) = some value
  plain : f.isOptional = false → scope.plain (Ident.field f.name) = some value
  held : scope.held (Ident.field f.name) = f.type.message?

/-- What is made of a field by the functions of a family. -/
def Family.field (F : Family α) (f : Field) : FieldValue → Option α
  | .absent => some (F.join [])
  | .scalar value =>
    some (if isOmitted f value then F.join [] else F.one f.type.codec f.number value)
  | .scalars values =>
    some (if f.packed then F.packed f.type.codec f.number values
      else F.repeated f.type.codec f.number values)
  | .message record => f.type.message?.bind fun type => F.message type f.number record
  | .messages records => f.type.message?.bind fun type =>
      (records.mapM (F.message type f.number)).map F.join

section
variable {s : Schema} {f : Field} {value : FieldValue} {scope : Scope}

theorem codec?_ofType (h : f.type.isMessage = false) :
    (CodecRef.ofType f.type).codec? = some f.type.codec := by
  cases htype : f.type with
  | scalar type => rfl
  | enum index => rfl
  | message index => simp [htype, FieldType.isMessage] at h

theorem passes?_conditionOf (hcard : f.cardinality = .implicit) {v : ScalarValue}
    (h : f.type.Holds v) : (conditionOf f).passes? v = some (!v.isZero) := by
  rw [conditionOf, hcard]
  generalize f.type = type at h
  cases type with
  | scalar type =>
    have hscalar : type.Holds v := h
    unfold Scalar.Holds at hscalar
    split at hscalar <;> simp_all [Condition.passes?, ScalarValue.isZero, bne]
  | enum index =>
    have hint : Scalar.int32.Holds v := h
    cases v with
    | i32 v => rfl
    | _ => exact hint.elim
  | message index => exact h.elim

/-- A value with implicit presence is written if it passes the comparison for its type. -/
theorem holds?_conditionOf (hcard : f.cardinality = .implicit) {v : ScalarValue}
    (h : f.type.Holds v) (hplain : scope.plain (Ident.field f.name) = some (.scalar v)) :
    (conditionOf f).holds? scope = some (!v.isZero) := by
  rw [← passes?_conditionOf hcard h]
  unfold conditionOf
  rw [hcard]
  dsimp only
  split <;> simp only [Condition.holds?, hplain]

/-- Whether anything is written of a field with this value. -/
def isWritten (f : Field) : FieldValue → Bool
  | .absent => false
  | .scalar value => !isOmitted f value
  | _ => true

theorem holds?_statementOf (hf : f.WellFormed) (hfits : FitsField s f value)
    (hshows : scope.Shows f value) :
    (conditionOf f).holds? scope = some (isWritten f value) := by
  cases hcard : f.cardinality with
  | implicit =>
    cases value with
    | scalar v =>
      rw [holds?_conditionOf hcard hfits.2 (hshows.plain (by simp [Field.isOptional, hcard])),
        isWritten, isOmitted, hcard]
      rfl
    | message record => exact absurd (hf.presence hcard) (by simp [hfits.2.1])
    | _ => simp [FitsField, hcard] at hfits
  | repeated =>
    have halways : conditionOf f = .always := by simp [conditionOf, hcard]
    rw [halways]
    cases value with
    | scalars values => rfl
    | messages records => rfl
    | _ => simp [FitsField, hcard] at hfits
  | _ =>
    have hsome : conditionOf f = .isSome (Ident.field f.name) := by simp [conditionOf, hcard]
    rw [hsome, Condition.holds?, hshows.option (by simp [Field.isOptional, hcard])]
    cases value with
    | scalar v => simp [isWritten, isOmitted, hcard, FieldValue.isAbsent]
    | _ => rfl

theorem argument?_statementOf (hshows : scope.Shows f value) :
    (statementOf f).argument? scope = some (Ident.field f.name, value) := by
  unfold Statement.argument? statementOf conditionOf
  cases hcard : f.cardinality with
  | repeated | implicit =>
    dsimp only
    rw [hshows.plain (by simp [Field.isOptional, hcard]), Option.map_some]
  | optional | required =>
    dsimp only
    rw [hshows.option (by simp [Field.isOptional, hcard]), Option.map_some]

theorem run_call (F : Family α) (hf : f.WellFormed) (hfits : FitsField s f value)
    (h : isWritten f value = true) :
    (statementOf f).call.run F f.type.message? value = F.field f value := by
  have hone (hcard : f.cardinality ≠ .repeated) : (statementOf f).call.extent = .one := by
    simp [statementOf, Field.isRepeated, hcard]
  have hall (hcard : f.cardinality = .repeated) :
      (statementOf f).call.extent = if f.packed then .packed else .repeated := by
    simp [statementOf, Field.isRepeated, hcard]
  have hcodec : (statementOf f).call.codec = .ofType f.type := rfl
  cases value with
  | absent => cases h
  | scalar v =>
    have homitted : isOmitted f v = false := (Bool.not_eq_true' _).mp h
    rw [Call.run, hone hfits.1, hcodec, codec?_ofType (FieldType.isMessage_of_holds hfits.2),
      Family.field, homitted]
    rfl
  | scalars values =>
    rw [Call.run, hall hfits.1, hcodec, codec?_ofType hfits.2.1, Family.field]
    cases f.packed <;> rfl
  | message record =>
    obtain ⟨index, htype⟩ := exists_message_type hfits.2.1
    unfold Call.run
    rw [hone hfits.1, hcodec, Family.field, htype]
    rfl
  | messages records =>
    obtain ⟨index, htype⟩ := exists_message_type hfits.2.1
    unfold Call.run
    rw [hall hfits.1, hf.unpacked hfits.2.1, hcodec, Family.field, htype]
    rfl

/-- **The call for a field makes of its value what the functions of the family make of it.** -/
theorem run_statementOf (F : Family α) (hf : f.WellFormed) (hfits : FitsField s f value)
    (hshows : scope.Shows f value) : (statementOf f).run F scope = F.field f value := by
  have hcondition : (statementOf f).condition = conditionOf f := rfl
  rw [Statement.run, hcondition, holds?_statementOf hf hfits hshows, Option.bind_some,
    argument?_statementOf hshows, Option.bind_some, hshows.held]
  cases hwritten : isWritten f value with
  | true => exact run_call F hf hfits hwritten
  | false =>
    cases value with
    | absent => rfl
    | scalar v =>
      have homitted : isOmitted f v = true := (Bool.not_eq_false' ..).mp hwritten
      rw [Family.field, homitted]
      rfl
    | _ => cases hwritten

/-! ### Lengths and bytes of fields -/

section
variable {index : Nat} (htype : f.type = .message index)
include htype

theorem Family.field_message (F : Family α) (record : Record) :
    F.field f (.message record) = F.message index f.number record := by
  rw [Family.field, htype]
  rfl

theorem Family.field_messages {F : Family α} {made : Record → α} {records : List Record}
    (h : ∀ record ∈ records, F.message index f.number record = some (made record)) :
    F.field f (.messages records) = some (F.join (records.map made)) := by
  rw [Family.field, htype, FieldType.message?, Option.bind_some, mapM_eq_some h, Option.map_some]

end

theorem lengths_field {length : Nat → Record → Option Nat} (hfits : FitsField s f value)
    (h : ∀ index, f.type = .message index → ∀ record ∈ value.records,
      length index record = some (encodedLen s index record)) :
    (lengths length).field f value = some (fieldLen s f value) := by
  have hmessage {index : Nat} (htype : f.type = .message index) {record : Record}
      (hrecord : record ∈ value.records) : (lengths length).message index f.number record =
        some (delimitedLen f.number (lenOf s (s.fieldsInside f) record)) := by
    show (length index record).map _ = _
    rw [h index htype record hrecord, fieldsInside_eq htype]
    rfl
  cases value with
  | absent => rfl
  | scalar v => rfl
  | scalars values => rfl
  | message record =>
    obtain ⟨index, htype⟩ := exists_message_type hfits.2.1
    rw [Family.field_message htype, hmessage htype (List.mem_singleton_self record), fieldLen]
  | messages records =>
    obtain ⟨index, htype⟩ := exists_message_type hfits.2.1
    refine (Family.field_messages htype fun record hrecord => hmessage htype hrecord).trans ?_
    rw [fieldLen, lenOfAll_eq]
    rfl

theorem encodings_field {length : Nat → Record → Option Nat} {encode : Nat → Record → Option Bytes}
    (hfits : FitsField s f value)
    (h : ∀ index, f.type = .message index → ∀ record ∈ value.records,
      length index record = some (encodedLen s index record) ∧
        encode index record = some (Record.encode s index record)) :
    (encodings length encode).field f value = some (Record.encodeField s f value) := by
  have hmessage {index : Nat} (htype : f.type = .message index) {record : Record}
      (hrecord : record ∈ value.records) :
      (encodings length encode).message index f.number record =
        some (delimited f.number (lenOf s (s.fieldsInside f) record)
          (inOrder (parts s (s.fieldsInside f) record))) := by
    obtain ⟨hlength, hencode⟩ := h index htype record hrecord
    show (length index record).bind _ = _
    rw [hlength, Option.bind_some, hencode, fieldsInside_eq htype]
    rfl
  cases value with
  | absent => rfl
  | scalar v => rfl
  | scalars values => rfl
  | message record =>
    obtain ⟨index, htype⟩ := exists_message_type hfits.2.1
    rw [Family.field_message htype, hmessage htype (List.mem_singleton_self record),
      Record.encodeField]
  | messages records =>
    obtain ⟨index, htype⟩ := exists_message_type hfits.2.1
    refine (Family.field_messages htype fun record hrecord => hmessage htype hrecord).trans ?_
    rw [Record.encodeField, encodeAll_eq, List.flatMap_def]
    rfl

end

/-! ### Structs -/

/-- The program of a schema: each type has the methods for its fields, under names of their own, and
every message that a field holds is there. -/
structure Program.Implements (p : Program) (s : Schema) : Prop where
  wellFormed : s.WellFormed
  methods : ∀ {type : Nat} {m : Message}, s.messages[type]? = some m →
    p.methods type = some (wireMethods s m)
  held : ∀ {type : Nat} {f : Field}, f ∈ s.fields type →
    p.held type (Ident.field f.name) = f.type.message?
  idents : ∀ type, ((s.fields type).map (Ident.field ·.name)).Nodup
  inside : ∀ {type index : Nat} {f : Field}, f ∈ s.fields type → f.type = .message index →
    ∃ m, s.messages[index]? = some m

section
variable {p : Program} {s : Schema} {type : Nat} {m : Message} {f : Field} {record : Record}

theorem isOptionType_typeName (type : Scalar) :
    isOptionType (Literal.typeName type) = false := by
  cases type <;> decide

theorem isOptionType_storage (hf : f.WellFormed) (s : Schema) (home : ModulePath) :
    isOptionType (FieldCode.ofField s home f).storage = f.isOptional := by
  have hoption (type : String) : isOptionType (optionType ++ "<" ++ type ++ ">") = true := by
    rw [isOptionType, String.append_assoc, behind?_eq]
    rfl
  have hlist (type : String) : isOptionType ("::std::vec::Vec<" ++ type ++ ">") = false := by
    rw [isOptionType, behind?, isPrefixOf?_eq_none 3 (by decide) (by simp; decide)]
    rfl
  rw [FieldCode.storage, field_ofField, Field.isOptional]
  cases hcard : f.cardinality with
  | optional => exact hoption _
  | required => exact hoption _
  | repeated => exact hlist _
  | implicit =>
    have hmessage := hf.presence hcard
    unfold FieldCode.ofField
    cases htype : f.type with
    | scalar type => exact isOptionType_typeName type
    | enum index => exact isOptionType_typeName .int32
    | message index => simp [htype, FieldType.isMessage] at hmessage

theorem fields_wireMethods (s : Schema) (m : Message) : (wireMethods s m).fields =
    m.fields.map fun f => (Ident.field f.name,
      (FieldCode.ofField s (ModulePath.of s m.file m.parent) f).storage) := by
  rw [wireMethods, Message.fieldCodes, List.map_map]
  refine List.map_congr_left fun f _ => ?_
  rw [← ident_ofField s (ModulePath.of s m.file m.parent) f]
  rfl

theorem place?_field (hp : p.Implements s) (hm : s.messages[type]? = some m) {i : Nat}
    (hf : (s.fields type)[i]? = some f) :
    p.place? type (Ident.field f.name) = some (i, f.isOptional) := by
  have hfields : s.fields type = m.fields := by rw [Schema.fields, hm]
  have hidents := List.pairwise_map.mp (hp.idents type)
  have hplace : (wireMethods s m).fields.findIdx? (·.1 == Ident.field f.name) = some i := by
    rw [fields_wireMethods, ← hfields, List.findIdx?_map]
    exact findIdx?_key hidents hf
  have hfield : (wireMethods s m).fields[i]? = some (Ident.field f.name,
      (FieldCode.ofField s (ModulePath.of s m.file m.parent) f).storage) := by
    rw [fields_wireMethods, ← hfields, List.getElem?_map, hf, Option.map_some]
  have hoption := isOptionType_storage (hp.wellFormed.field (List.mem_of_getElem? hf)) s
    (ModulePath.of s m.file m.parent)
  rw [Program.place?, hp.methods hm, Option.bind_some, hplace]
  simp only [Option.bind_eq_bind, Option.bind_some, hfield, hoption, Option.pure_def]

theorem scope_shows (hp : p.Implements s) (hm : s.messages[type]? = some m) {i : Nat}
    {value : FieldValue} (hf : (s.fields type)[i]? = some f) (hvalue : record[i]? = some value) :
    (p.scope type record).Shows f value := by
  have hplace := place?_field hp hm hf
  refine ⟨fun hopt => ?_, fun hopt => ?_, hp.held (List.mem_of_getElem? hf)⟩
  · show (p.place? _ _).bind _ = _
    rw [hplace, Option.bind_some, hopt, if_pos rfl, hvalue]
  · show (p.place? _ _).bind _ = _
    rw [hplace, Option.bind_some, hopt, if_neg Bool.false_ne_true, hvalue]

/-! ### Writing -/

theorem sorted_eq {fields : List Field} (h : record.length = fields.length) :
    sorted fields = (sortedValues fields record).map (·.1) := by
  have hsort : (sortedValues fields record).map (·.1) =
      ((fields.zip record).map (·.1)).mergeSort fun a b => a.number ≤ b.number :=
    List.map_mergeSort fun a _ b _ => rfl
  rw [hsort, List.map_fst_zip h.ge, sorted]

theorem runStatements_fields (hp : p.Implements s) (hm : s.messages[type]? = some m)
    (hfits : HasType s type record) {F : Family α} (made : Field → FieldValue → α)
    (h : ∀ f value, f ∈ s.fields type → value ∈ record → FitsField s f value →
      F.field f value = some (made f value)) :
    runStatements F (p.scope type record) ((sorted m.fields).map statementOf) =
      some (F.join ((sortedValues (s.fields type) record).map fun x => made x.1 x.2)) := by
  have hfields : m.fields = s.fields type := by rw [Schema.fields, hm]
  have hrun : (sortedValues (s.fields type) record).mapM
        (fun x => (statementOf x.1).run F (p.scope type record)) =
      some ((sortedValues (s.fields type) record).map fun x => made x.1 x.2) := by
    refine mapM_eq_some fun x hx => ?_
    obtain ⟨i, hf, hvalue⟩ := mem_sortedValues.mp hx
    have hfield := List.mem_of_getElem? hf
    rw [run_statementOf F (hp.wellFormed.field hfield) (hfits.field hf hvalue)
      (scope_shows hp hm hf hvalue)]
    exact h x.1 x.2 hfield (List.mem_of_getElem? hvalue) (hfits.field hf hvalue)
  rw [runStatements, hfields, sorted_eq hfits.length_eq, List.map_map, List.mapM_map]
  exact congrArg (Option.map F.join) hrun

/-- A value of the type with this number, with less than so many levels of messages in it. -/
structure Within (s : Schema) (levels type : Nat) (record : Record) : Prop where
  exists_type : ∃ m, s.messages[type]? = some m
  typed : HasType s type record
  depth_lt : depth record < levels

theorem Within.inside {levels index : Nat} {value : FieldValue} {inner : Record}
    (h : Within s (levels + 1) type record) (hp : p.Implements s) (hf : f ∈ s.fields type)
    (hvalue : value ∈ record) (hfits : FitsField s f value) (htype : f.type = .message index)
    (hinner : inner ∈ value.records) : Within s levels index inner where
  exists_type := hp.inside hf htype
  typed := hasType_of_mem hfits htype hinner
  depth_lt := by
    have hinside := depth_lt_of_mem hinner
    have hbelow := depth_le_iff.mp (Nat.le_of_lt_succ h.depth_lt) value hvalue
    omega

/-- **The length that the code computes is that of the record.** -/
theorem Program.length_eq (hp : p.Implements s) {levels : Nat} (h : Within s levels type record) :
    p.length levels type record = some (encodedLen s type record) := by
  induction levels generalizing type record with
  | zero => exact absurd h.depth_lt (Nat.not_lt_zero _)
  | succ levels ih =>
    obtain ⟨m, hm⟩ := h.exists_type
    rw [Program.length, hp.methods hm, Option.bind_some, wireMethods, encodedLen_sorted]
    refine runStatements_fields hp hm h.typed (fieldLen s) fun f value hf hvalue hfits => ?_
    exact lengths_field hfits fun index htype inner hinner =>
      ih (h.inside hp hf hvalue hfits htype hinner)

/-- **The bytes that the code writes are those of the record.** -/
theorem Program.encode_eq (hp : p.Implements s) {levels : Nat} (h : Within s levels type record) :
    p.encode levels type record = some (Record.encode s type record) := by
  induction levels generalizing type record with
  | zero => exact absurd h.depth_lt (Nat.not_lt_zero _)
  | succ levels ih =>
    obtain ⟨m, hm⟩ := h.exists_type
    rw [Program.encode, hp.methods hm, Option.bind_some, wireMethods, encode_sorted]
    refine runStatements_fields hp hm h.typed (Record.encodeField s)
      fun f value hf hvalue hfits => ?_
    refine encodings_field hfits fun index htype inner hinner => ?_
    have hinside := h.inside hp hf hvalue hfits htype hinner
    exact ⟨Program.length_eq hp hinside, ih hinside⟩

/-! ### Checks -/

theorem inSequence_singleton (x : Option (Except DecodeError Unit)) : inSequence [x] = x := by
  rcases x with _ | _ | _ <;> rfl

theorem inSequence_append {a b : List (Option (Except DecodeError Unit))}
    {x y : Except DecodeError Unit} (ha : inSequence a = some x) (hb : inSequence b = some y) :
    inSequence (a ++ b) = some (x.bind fun _ => y) := by
  induction a with
  | nil =>
    cases ha
    exact hb
  | cons first others ih =>
    rcases first with _ | _ | _
    · cases ha
    · cases ha
      rfl
    · exact ih ha

section
variable {check : Nat → Record → Option (Except DecodeError Unit)} {value : FieldValue}
  {scope : Scope}

theorem run_presence (fullName : String) (hshows : scope.Shows f value) :
    inSequence ((if f.cardinality = .required then [Check.isSome (Ident.field f.name) f.name]
      else []).map (Check.run check fullName scope)) = some (checkPresence fullName f value) := by
  by_cases hcard : f.cardinality = .required
  · rw [if_pos hcard, List.map_singleton, inSequence_singleton, Check.run,
      hshows.option (by simp [Field.isOptional, hcard]), Option.map_some, checkPresence]
    simp only [hcard, true_and]
  · rw [if_neg hcard, checkPresence, if_neg fun h => hcard h.1]
    rfl

theorem inSequence_records {index : Nat} {records : List Record} (htype : f.type = .message index)
    (h : ∀ record ∈ records, check index record = some (Record.check s index record)) :
    inSequence (records.map (check index)) = some (checkRecords s f records) := by
  induction records with
  | nil => rfl
  | cons record rest ih =>
    obtain ⟨hrecord, hrest⟩ := List.forall_mem_cons.mp h
    rw [checkRecords_cons, checkFields_inside htype, List.map_cons, ← List.singleton_append]
    exact inSequence_append ((inSequence_singleton _).trans hrecord) (ih hrest)

theorem run_contents (hf : f.WellFormed) (hfits : FitsField s f value) (fullName : String)
    (hshows : scope.Shows f value)
    (h : ∀ index, f.type = .message index → ∀ record ∈ value.records,
      check index record = some (Record.check s index record)) :
    inSequence ((if !f.type.isMessage then []
      else if f.isRepeated then [Check.insideEach (Ident.field f.name)]
      else [Check.inside (Ident.field f.name)]).map (Check.run check fullName scope)) =
      some (checkContents s f value) := by
  cases hmessage : f.type.isMessage with
  | false =>
    cases value with
    | message record => simp [FitsField, hmessage] at hfits
    | messages records => simp [FitsField, hmessage] at hfits
    | _ => rfl
  | true =>
    obtain ⟨index, htype⟩ := exists_message_type hmessage
    have hheld : scope.held (Ident.field f.name) = some index := by
      rw [hshows.held, htype]
      rfl
    cases hcard : f.cardinality with
    | implicit => exact absurd (hf.presence hcard) (by simp [hmessage])
    | repeated =>
      have hrepeated : f.isRepeated = true := by simp [Field.isRepeated, hcard]
      rw [eq_messages hcard hmessage hfits] at hshows h ⊢
      rw [hrepeated]
      show inSequence [Check.run check fullName scope (.insideEach _)] = _
      rw [inSequence_singleton, Check.run, hshows.plain (by simp [Field.isOptional, hcard]), hheld]
      exact inSequence_records htype (h index htype)
    | _ =>
      have hsingle : f.isRepeated = false := by simp [Field.isRepeated, hcard]
      rw [hsingle]
      show inSequence [Check.run check fullName scope (.inside _)] = _
      rw [inSequence_singleton, Check.run, hshows.option (by simp [Field.isOptional, hcard]),
        hheld]
      cases value with
      | absent => rfl
      | message record =>
        rw [checkContents, checkFields_inside htype]
        exact h index htype record (List.mem_singleton_self record)
      | scalar v => simp [FieldType.isMessage_of_holds hfits.2] at hmessage
      | _ => simp [FitsField, hcard] at hfits

theorem run_checksOf (hf : f.WellFormed) (hfits : FitsField s f value) (fullName : String)
    (hshows : scope.Shows f value)
    (h : ∀ index, f.type = .message index → ∀ record ∈ value.records,
      check index record = some (Record.check s index record)) :
    inSequence ((checksOf f).map (Check.run check fullName scope)) =
      some ((checkPresence fullName f value).bind fun _ => checkContents s f value) := by
  rw [checksOf, List.map_append]
  exact inSequence_append (run_presence fullName hshows) (run_contents hf hfits fullName hshows h)

theorem inSequence_fields {fields : List Field} {fullName : String}
    (hlen : record.length = fields.length)
    (h : ∀ x ∈ fields.zip record, inSequence ((checksOf x.1).map (Check.run check fullName scope)) =
      some ((checkPresence fullName x.1 x.2).bind fun _ => checkContents s x.1 x.2)) :
    inSequence ((fields.flatMap checksOf).map (Check.run check fullName scope)) =
      some (checkFields s fullName fields record) := by
  induction record generalizing fields with
  | nil =>
    rw [List.eq_nil_of_length_eq_zero hlen.symm]
    rfl
  | cons value rest ih =>
    cases fields with
    | nil => cases hlen
    | cons f others =>
      obtain ⟨hfield, hothers⟩ := List.forall_mem_cons.mp h
      have hrest := ih (Nat.succ.inj hlen) hothers
      rw [List.flatMap_cons, List.map_append, checkFields_cons, inSequence_append hfield hrest]
      cases checkPresence fullName f value <;> rfl

end

/-- **The code finds the same required field missing.** -/
theorem Program.check_eq (hp : p.Implements s) {levels : Nat} (h : Within s levels type record) :
    p.check levels type record = some (Record.check s type record) := by
  induction levels generalizing type record with
  | zero => exact absurd h.depth_lt (Nat.not_lt_zero _)
  | succ levels ih =>
    obtain ⟨m, hm⟩ := h.exists_type
    have hfields : s.fields type = m.fields := by rw [Schema.fields, hm]
    have hname : s.typeName type = m.fullName.dotted := by rw [Schema.typeName, hm]
    rw [Program.check, hp.methods hm, Option.bind_some, wireMethods, Record.check, hname, hfields]
    refine inSequence_fields (h.typed.length_eq.trans (congrArg _ hfields)) fun x hx => ?_
    obtain ⟨i, hi⟩ := List.getElem?_of_mem hx
    obtain ⟨hf, hvalue⟩ := List.getElem?_zip_eq_some.mp hi
    rw [← hfields] at hf
    have hfits := h.typed.field hf hvalue
    refine run_checksOf (hp.wellFormed.field (List.mem_of_getElem? hf)) hfits _
      (scope_shows hp hm hf hvalue) fun index htype inner hinner => ?_
    exact ih (h.inside hp (List.mem_of_getElem? hf) (List.mem_of_getElem? hvalue) hfits htype
      hinner)

end

end MessageType

end Protobuf

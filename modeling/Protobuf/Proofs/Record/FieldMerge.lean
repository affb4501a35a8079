import Protobuf.Proofs.Record.Length
import Protobuf.Proofs.Record.Nesting
import Protobuf.Proofs.Record.Unset

/-! Merging one field that was written.

What was written of a field is a run of steps of the message it belongs to, and the run changes the
value of that field only, to the one that `combineField` gives. If the value nests deeper than the
budget allows, the run comes to the limit instead; `Outcome` says both at once, so that runs can be
put one behind the other without looking at depths. The messages inside are a hypothesis here
(`NestedMerges`): a message of the given budget is made of fields, and a field of messages with one
level less. -/
namespace Protobuf.Record

/-! ### Bytes that may nest too deep -/

section
variable {σ : Type} {step : σ → Bytes → Merged σ} {p q : Prop} {a b c : σ}
  {bytes front back : Bytes}

/-- Reading the bytes leads from one state to the other if they fit the budget, and comes to the
limit if they do not. -/
structure Outcome (step : σ → Bytes → Merged σ) (fits : Prop) (a : σ) (bytes : Bytes) (b : σ) :
    Prop where
  run : fits → Delimited.Run step a bytes b
  stop : ¬ fits → Delimited.Stops step a bytes .recursionLimitReached

theorem Outcome.of_run (hp : p) (h : Delimited.Run step a bytes b) : Outcome step p a bytes b :=
  ⟨fun _ => h, fun hnot => absurd hp hnot⟩

theorem Outcome.append (ha : Delimited.Advances step) (hfront : Outcome step p a front b)
    (hback : Outcome step q b back c) : Outcome step (p ∧ q) a (front ++ back) c := by
  refine ⟨fun hfits => (hfront.run hfits.1).append ha (hback.run hfits.2), fun hnot => ?_⟩
  by_cases hp : p
  · exact .after ha (hfront.run hp) (hback.stop fun hq => hnot ⟨hp, hq⟩)
  · exact (hfront.stop hp).append back

theorem Outcome.congr (h : Outcome step p a bytes b) (hiff : q ↔ p) : Outcome step q a bytes b :=
  ⟨fun hq => h.run (hiff.mp hq), fun hnot => h.stop fun hp => hnot (hiff.mpr hp)⟩

end

/-! ### Finding a field by its number -/

theorem findIdx?_key {α β : Type} [DecidableEq β] {l : List α} {key : α → β}
    (h : l.Pairwise fun a b => key a ≠ key b) {i : Nat} {a : α} (ha : l[i]? = some a) :
    l.findIdx? (key · == key a) = some i := by
  obtain ⟨hi, hai⟩ := List.getElem?_eq_some_iff.mp ha
  rw [List.findIdx?_eq_some_iff_getElem]
  refine ⟨hi, by simp [hai], fun j hj => ?_⟩
  have hne := List.pairwise_iff_getElem.mp h j i (by omega) hi hj
  simpa [hai] using hne

theorem findIdx?_number {fields : List Field} (h : fields.Pairwise fun f g => f.number ≠ g.number)
    {i : Nat} {f : Field} (hf : fields[i]? = some f) :
    fields.findIdx? (·.number == f.number) = some i :=
  findIdx?_key h hf

variable {s : Schema} {budget type i : Nat} {f : Field} {m : Record} {old : FieldValue}

/-- A field of the message type has its value at this place of the record. -/
structure FieldAt (s : Schema) (type : Nat) (m : Record) (i : Nat) (f : Field)
    (value : FieldValue) : Prop where
  field : (s.fields type)[i]? = some f
  value : m[i]? = some value

theorem FieldAt.set_same (h : FieldAt s type m i f old) : m.set i old = m := by
  obtain ⟨hi, hmi⟩ := List.getElem?_eq_some_iff.mp h.value
  rw [← hmi, List.set_getElem_self]

theorem FieldAt.set (h : FieldAt s type m i f old) (new : FieldValue) :
    FieldAt s type (m.set i new) i f new :=
  ⟨h.field, List.getElem?_set_self (List.getElem?_eq_some_iff.mp h.value).1⟩

/-- Behind the key of a field its value is merged, and nothing else changes. -/
theorem mergeNext_key (hs : s.WellFormed) (hat : FieldAt s type m i f old) (wireType : WireType)
    (payload : Bytes) :
    mergeNext s budget type m (Key.encode f.number wireType ++ payload) =
      (mergeValue s (mergeNested s budget) f wireType old payload).map fun v => m.set i v := by
  have hfield := hs.field (List.mem_of_getElem? hat.field)
  rw [mergeNext, mergeNextWith, Key.decode_encode hfield.number_pos hfield.number_le]
  show mergeFieldWith _ _ _ _ _ f.number wireType payload = _
  rw [mergeFieldWith, findIdx?_number (hs.distinct type) hat.field]
  simp only [hat.field, hat.value]

theorem run_key (hs : s.WellFormed) (hat : FieldAt s type m i f old) {wireType : WireType}
    {payload : Bytes} {new : FieldValue}
    (h : ∀ tail, mergeValue s (mergeNested s budget) f wireType old (payload ++ tail) =
      ⟨new, .ok tail⟩) :
    Delimited.Run (mergeNext s budget type) m (Key.encode f.number wireType ++ payload)
      (m.set i new) := by
  have halone := h []
  rw [List.append_nil] at halone
  refine .single (by simp [Key.encode_ne_nil]) ?_
  rw [mergeNext_key hs hat, halone]
  rfl

theorem stops_key (hs : s.WellFormed) (hat : FieldAt s type m i f old) {wireType : WireType}
    {payload : Bytes} {e : Malformed}
    (h : ∀ tail, (mergeValue s (mergeNested s budget) f wireType old (payload ++ tail)).rest =
      .error e) :
    Delimited.Stops (mergeNext s budget type) m (Key.encode f.number wireType ++ payload) e := by
  refine .single (by simp [Key.encode_ne_nil]) fun tail => ?_
  rw [List.append_assoc, mergeNext_key hs hat]
  exact h tail

/-! ### Scalars -/

theorem mergeValue_scalar {nested : Nested} (htype : f.type.isMessage = false)
    (wireType : WireType) (bytes : Bytes) :
    mergeValue s nested f wireType old bytes =
      if f.isRepeated then
        (f.type.codec.mergeRepeated wireType old.toScalars bytes).map .scalars
      else (f.type.codec.merge wireType (old.toScalar f.type.codec.zero) bytes).map .scalar := by
  unfold mergeValue
  split
  · rename_i index hindex
    rw [hindex] at htype
    cases htype
  · rfl

theorem isOmitted_iff {value : ScalarValue} :
    isOmitted f value = true ↔ f.cardinality = .implicit ∧ value.isZero = true := by
  simp [isOmitted]

theorem run_scalar (hs : s.WellFormed) (hat : FieldAt s type m i f old) {value : ScalarValue}
    (hfits : FitsField s f (.scalar value)) (hlen : fieldLen s f (.scalar value) < 2 ^ 64) :
    Delimited.Run (mergeNext s budget type) m (encodeField s f (.scalar value))
      (m.set i (combineField s f old (.scalar value))) := by
  obtain ⟨hcard, hholds⟩ : f.cardinality ≠ .repeated ∧ f.type.Holds value := hfits
  rw [encodeField, combineField]
  rw [fieldLen] at hlen
  by_cases homit : isOmitted f value = true
  · rw [if_pos homit, if_pos (isOmitted_iff.mp homit), hat.set_same]
    exact .nil
  · rw [if_neg homit, if_neg fun h => homit (isOmitted_iff.mpr h)]
    rw [if_neg homit, Codec.encodedLen] at hlen
    have hsingle : ¬ f.isRepeated = true := by simp [Field.isRepeated, hcard]
    refine run_key hs hat fun tail => ?_
    rw [mergeValue_scalar (FieldType.isMessage_of_holds hholds), if_neg hsingle,
      f.type.codec_lawful.merge_write _ hholds (by omega)]
    rfl

/-! ### Lists of scalars -/

/-- A repeated field of scalars holds a list of them. -/
theorem eq_scalars (hcard : f.cardinality = .repeated) (htype : f.type.isMessage = false)
    (h : FitsField s f old) : old = .scalars old.toScalars := by
  cases old with
  | absent => simp [FitsField, hcard] at h
  | scalar value => simp [FitsField, hcard] at h
  | scalars values => rfl
  | message record => simp [FitsField, hcard] at h
  | messages records => simp [FitsField, htype] at h

theorem run_packed (hs : s.WellFormed) {before values : List ScalarValue}
    (hat : FieldAt s type m i f (.scalars before)) (hcard : f.cardinality = .repeated)
    (htype : f.type.isMessage = false) (hpacked : f.packed = true)
    (hvalues : ∀ value ∈ values, f.type.Holds value)
    (hlen : f.type.codec.encodedLenPacked f.number values < 2 ^ 64) :
    Delimited.Run (mergeNext s budget type) m (f.type.codec.encodePacked f.number values)
      (m.set i (.scalars (before ++ values))) := by
  unfold Codec.encodedLenPacked at hlen
  unfold Codec.encodePacked
  by_cases hempty : values.isEmpty = true
  · rw [if_pos hempty, List.isEmpty_iff.mp hempty, List.append_nil, hat.set_same]
    exact .nil
  · rw [if_neg hempty] at hlen
    rw [if_neg hempty, List.append_assoc]
    have hpackable := (hs.field (List.mem_of_getElem? hat.field)).packable hpacked
    refine run_key hs hat fun tail => ?_
    rw [mergeValue_scalar htype, if_pos (by simp [Field.isRepeated, hcard])]
    show (f.type.codec.mergeRepeated _ before _).map _ = _
    rw [f.type.codec_lawful.mergeRepeated_write hpackable hvalues (by omega)]
    rfl

theorem run_unpacked (hs : s.WellFormed) {before values : List ScalarValue}
    (hat : FieldAt s type m i f (.scalars before)) (hcard : f.cardinality = .repeated)
    (htype : f.type.isMessage = false) (hvalues : ∀ value ∈ values, f.type.Holds value)
    (hlen : f.type.codec.totalSize values < 2 ^ 64) :
    Delimited.Run (mergeNext s budget type) m (f.type.codec.encodeRepeated f.number values)
      (m.set i (.scalars (before ++ values))) := by
  induction values generalizing m before with
  | nil =>
    rw [List.append_nil, hat.set_same]
    exact .nil
  | cons value rest ih =>
    rw [Codec.totalSize] at hlen
    have hfirst : Delimited.Run (mergeNext s budget type) m (f.type.codec.encode f.number value)
        (m.set i (.scalars (before ++ [value]))) := by
      refine run_key hs hat fun tail => ?_
      rw [mergeValue_scalar htype, if_pos (by simp [Field.isRepeated, hcard]),
        Codec.Lawful.mergeRepeated_single]
      show (f.type.codec.append before _).map _ = _
      rw [f.type.codec_lawful.append_write before (hvalues value (by simp)) (by omega)]
      rfl
    have hrest := ih (hat.set (.scalars (before ++ [value])))
      (fun v hv => hvalues v (List.mem_cons_of_mem value hv)) (by omega)
    rw [List.set_set, List.append_assoc] at hrest
    exact hfirst.append (mergeNext_advances s budget type) hrest

theorem run_scalars (hs : s.WellFormed) (hat : FieldAt s type m i f old)
    (hfitsOld : FitsField s f old) {values : List ScalarValue}
    (hfits : FitsField s f (.scalars values)) (hlen : fieldLen s f (.scalars values) < 2 ^ 64) :
    Delimited.Run (mergeNext s budget type) m (encodeField s f (.scalars values))
      (m.set i (combineField s f old (.scalars values))) := by
  obtain ⟨hcard, htype, hvalues⟩ : f.cardinality = .repeated ∧ f.type.isMessage = false ∧
    ∀ value ∈ values, f.type.Holds value := hfits
  rw [eq_scalars hcard htype hfitsOld] at hat
  rw [encodeField, combineField]
  rw [fieldLen] at hlen
  by_cases hpacked : f.packed = true
  · rw [if_pos hpacked] at hlen ⊢
    exact run_packed hs hat hcard htype hpacked hvalues hlen
  · rw [if_neg hpacked] at hlen ⊢
    rw [Codec.encodedLenRepeated] at hlen
    exact run_unpacked hs hat hcard htype hvalues (by omega)

/-! ### Messages -/

/-- Messages behind their length are merged into others of their type, unless they nest too deep:
then the limit is reached, whatever follows them. -/
structure NestedMerges (s : Schema) (budget : Nat) : Prop where
  merged : ∀ {type : Nat} {a b : Record}, HasType s type a → HasType s type b →
    encodedLen s type b < 2 ^ 64 → depth b < budget → ∀ tail,
      mergeNested s budget type a (encodeDelimited s type b ++ tail) =
        ⟨combine s (s.fields type) a b, .ok tail⟩
  tooDeep : ∀ {type : Nat} {a b : Record}, HasType s type a → HasType s type b →
    encodedLen s type b < 2 ^ 64 → budget ≤ depth b → ∀ tail,
      (mergeNested s budget type a (encodeDelimited s type b ++ tail)).rest =
        .error .recursionLimitReached

section
variable {nested : Nested} {index : Nat}

theorem fieldsInside_eq (htype : f.type = .message index) : s.fieldsInside f = s.fields index := by
  rw [Schema.fieldsInside, htype]

/-- A message inside another is written behind a key and its length. -/
theorem delimited_eq (htype : f.type = .message index) (record : Record) :
    delimited f.number (lenOf s (s.fieldsInside f) record)
        (inOrder (parts s (s.fieldsInside f) record)) =
      Key.encode f.number .lengthDelimited ++ encodeDelimited s index record := by
  rw [fieldsInside_eq htype, delimited, encodeDelimited, List.append_assoc]
  rfl

theorem mergeValue_message (htype : f.type = .message index) (hcard : f.cardinality ≠ .repeated)
    (bytes : Bytes) :
    mergeValue s nested f .lengthDelimited old bytes =
      (nested index (old.toRecord (s.unsetRecord index)) bytes).map .message := by
  unfold mergeValue
  simp [htype, Field.isRepeated, hcard, mergeMessage, checkWireType]

theorem mergeValue_messages (htype : f.type = .message index) (hcard : f.cardinality = .repeated)
    (bytes : Bytes) :
    mergeValue s nested f .lengthDelimited old bytes =
      appendMessage s nested index .lengthDelimited old bytes := by
  unfold mergeValue
  simp [htype, Field.isRepeated, hcard]

theorem appendMessage_error {bytes : Bytes} {e : Malformed}
    (h : (nested index (s.unsetRecord index) bytes).rest = .error e) :
    (appendMessage s nested index .lengthDelimited old bytes).rest = .error e := by
  unfold appendMessage
  cases hn : nested index (s.unsetRecord index) bytes with
  | mk record r =>
    rw [hn] at h
    have hr : r = .error e := h
    rw [hr]
    rfl

theorem exists_message_type (h : f.type.isMessage = true) : ∃ index, f.type = .message index := by
  cases htype : f.type with
  | scalar type => simp [htype, FieldType.isMessage] at h
  | enum index => simp [htype, FieldType.isMessage] at h
  | message index => exact ⟨index, rfl⟩

/-- What a message is merged into, if the field already has one or not. -/
theorem toRecord_hasType (hs : s.WellFormed) (htype : f.type = .message index)
    (h : FitsField s f old) : HasType s index (old.toRecord (s.unsetRecord index)) := by
  cases old with
  | message record =>
    have hfits := h.2.2
    rwa [fieldsInside_eq htype] at hfits
  | absent => exact unset_hasType hs index
  | scalar value => exact unset_hasType hs index
  | scalars values => exact unset_hasType hs index
  | messages records => exact unset_hasType hs index

end

theorem outcome_message (hs : s.WellFormed) (hn : NestedMerges s budget)
    (hat : FieldAt s type m i f old) (hfitsOld : FitsField s f old)
    {record : Record} (hfits : FitsField s f (.message record))
    (hlen : fieldLen s f (.message record) < 2 ^ 64) :
    Outcome (mergeNext s budget type) (valueDepth (.message record) ≤ budget) m
      (encodeField s f (.message record)) (m.set i (combineField s f old (.message record))) := by
  obtain ⟨hcard, hmessage, hrecord⟩ : f.cardinality ≠ .repeated ∧ f.type.isMessage = true ∧
    Fits s (s.fieldsInside f) record := hfits
  obtain ⟨index, htype⟩ := exists_message_type hmessage
  have hinto := toRecord_hasType hs htype hfitsOld
  rw [fieldLen, delimitedLen] at hlen
  rw [encodeField, delimited_eq htype, combineField]
  rw [fieldsInside_eq htype] at hrecord hlen ⊢
  have hshort : encodedLen s index record < 2 ^ 64 := by
    rw [encodedLen]
    omega
  constructor
  · intro hdepth
    rw [valueDepth] at hdepth
    refine run_key hs hat fun tail => ?_
    rw [mergeValue_message htype hcard, hn.merged hinto hrecord hshort hdepth]
    rfl
  · intro hdepth
    rw [valueDepth] at hdepth
    refine stops_key hs hat fun tail => ?_
    rw [mergeValue_message htype hcard]
    exact hn.tooDeep hinto hrecord hshort (by omega) tail

/-! ### Lists of messages -/

/-- A repeated field of messages holds a list of them. -/
theorem eq_messages (hcard : f.cardinality = .repeated) (htype : f.type.isMessage = true)
    (h : FitsField s f old) : old = .messages old.toRecords := by
  cases old with
  | absent => simp [FitsField, hcard] at h
  | scalar value => simp [FitsField, hcard] at h
  | scalars values => simp [FitsField, htype] at h
  | message record => simp [FitsField, hcard] at h
  | messages records => rfl

theorem outcome_element (hs : s.WellFormed) (hn : NestedMerges s budget)
    {before : List Record} (hat : FieldAt s type m i f (.messages before))
    (hcard : f.cardinality = .repeated) {index : Nat} (htype : f.type = .message index)
    {record : Record} (hfits : HasType s index record) (hlen : encodedLen s index record < 2 ^ 64) :
    Outcome (mergeNext s budget type) (depth record + 1 ≤ budget) m
      (Key.encode f.number .lengthDelimited ++ encodeDelimited s index record)
      (m.set i (.messages (before ++ [normalize s (s.fields index) record]))) := by
  have hinto := unset_hasType hs index
  constructor
  · intro hdepth
    refine run_key hs hat fun tail => ?_
    have hmerged := hn.merged hinto hfits hlen hdepth tail
    rw [Schema.unsetRecord, combine_unset s _ record hfits] at hmerged
    rw [mergeValue_messages htype hcard]
    exact appendMessage_eq_ok_iff.mpr ⟨rfl, _, hmerged, rfl⟩
  · intro hdepth
    refine stops_key hs hat fun tail => ?_
    rw [mergeValue_messages htype hcard]
    exact appendMessage_error (hn.tooDeep hinto hfits hlen (by omega) tail)

theorem outcome_elements (hs : s.WellFormed) (hn : NestedMerges s budget)
    {before records : List Record} (hat : FieldAt s type m i f (.messages before))
    (hcard : f.cardinality = .repeated) {index : Nat} (htype : f.type = .message index)
    (hfits : FitEach s f records)
    (hlen : lenOfAll s f records < 2 ^ 64) :
    Outcome (mergeNext s budget type) (depthOfEach records ≤ budget) m (encodeAll s f records)
      (m.set i (.messages (before ++ normalizeEach s f records))) := by
  induction records generalizing m before with
  | nil =>
    rw [normalizeEach, List.append_nil, hat.set_same]
    exact .of_run (Nat.zero_le budget) .nil
  | cons record rest ih =>
    obtain ⟨hrecord, hrest⟩ : Fits s (s.fieldsInside f) record ∧ FitEach s f rest := hfits
    rw [lenOfAll, delimitedLen] at hlen
    rw [encodeAll, delimited_eq htype, normalizeEach]
    rw [fieldsInside_eq htype] at hrecord hlen ⊢
    have hfirst := outcome_element hs hn hat hcard htype hrecord (by rw [encodedLen]; omega)
    have hnew := hat.set (.messages (before ++ [normalize s (s.fields index) record]))
    have hothers := ih hnew hrest (by omega)
    rw [List.set_set, List.append_assoc] at hothers
    refine (hfirst.append (mergeNext_advances s budget type) hothers).congr ?_
    rw [depthOfEach, Nat.max_le]

theorem outcome_messages (hs : s.WellFormed) (hn : NestedMerges s budget)
    (hat : FieldAt s type m i f old) (hfitsOld : FitsField s f old)
    {records : List Record} (hfits : FitsField s f (.messages records))
    (hlen : fieldLen s f (.messages records) < 2 ^ 64) :
    Outcome (mergeNext s budget type) (valueDepth (.messages records) ≤ budget) m
      (encodeField s f (.messages records))
      (m.set i (combineField s f old (.messages records))) := by
  obtain ⟨hcard, hmessage, hrecords⟩ : f.cardinality = .repeated ∧ f.type.isMessage = true ∧
    FitEach s f records := hfits
  obtain ⟨index, htype⟩ := exists_message_type hmessage
  rw [eq_messages hcard hmessage hfitsOld] at hat
  rw [fieldLen] at hlen
  rw [encodeField, combineField, valueDepth]
  exact outcome_elements hs hn hat hcard htype hrecords hlen

/-! ### Any field -/

/-- **What was written of a field is merged into it as `combineField` says**, if it does not nest
too deep. -/
theorem outcome_field (hs : s.WellFormed) (hn : NestedMerges s budget)
    (hat : FieldAt s type m i f old) (hfitsOld : FitsField s f old)
    {value : FieldValue} (hfits : FitsField s f value) (hlen : fieldLen s f value < 2 ^ 64) :
    Outcome (mergeNext s budget type) (valueDepth value ≤ budget) m (encodeField s f value)
      (m.set i (combineField s f old value)) := by
  cases value with
  | absent =>
    rw [encodeField, combineField, hat.set_same]
    exact .of_run (Nat.zero_le budget) .nil
  | scalar value => exact .of_run (Nat.zero_le budget) (run_scalar hs hat hfits hlen)
  | scalars values =>
    exact .of_run (Nat.zero_le budget) (run_scalars hs hat hfitsOld hfits hlen)
  | message record => exact outcome_message hs hn hat hfitsOld hfits hlen
  | messages records => exact outcome_messages hs hn hat hfitsOld hfits hlen

end Protobuf.Record

import Protobuf.Proofs.Record.Stream

/-! What reading any bytes gives.

The bytes may come from anywhere: keys and lengths longer than they need be, fields in any order and
more than once, packed where they are declared otherwise. Whatever is read successfully, the record
stays a value of its type, it nests no deeper than the budget, and it is paid for by the bytes that
were read: `mass` counts how many were needed at the least. `Reading` says all three of a record
part way through, one step keeps it (`mergeNextWith_reading`), and so does a whole message inside
another, which has one level less of the budget (`nestedReads`). -/
namespace Protobuf

/-! ### Values as they are read -/

/-- How many bytes of text a value holds. -/
def ScalarValue.content : ScalarValue → Nat
  | .string text => (Utf8.encode text).length
  | .bytes text => text.length
  | _ => 0

theorem Utf8.encode_of_decode? {bytes : Bytes} {text : String} (h : decode? bytes = some text) :
    encode text = bytes := by
  unfold decode? String.fromUTF8? at h
  split at h
  · cases h
    rfl
  · cases h

theorem Delimited.readBytes_length {bytes payload rest : Bytes}
    (h : readBytes bytes = .ok (payload, rest)) : payload.length + rest.length < bytes.length := by
  obtain ⟨len, mid, hlen, -, rfl⟩ := readBytes_eq_ok_iff.mp h
  have := Varint.decode_length_lt hlen
  rwa [List.length_append] at this

namespace Scalar

theorem holds_of_read (type : Scalar) {bytes rest : Bytes} {value : ScalarValue}
    (h : type.codec.read bytes = .ok (value, rest)) : type.Holds value := by
  cases type <;> obtain ⟨a, -, rfl⟩ := Codec.Lawful.lift_read_eq_ok_iff.mp h <;> trivial

/-- A value is read from the bytes of its text, and at least one more. -/
theorem content_lt (type : Scalar) {bytes rest : Bytes} {value : ScalarValue}
    (h : type.codec.read bytes = .ok (value, rest)) :
    value.content + rest.length < bytes.length := by
  have hshort := type.codec_lawful.shortens h
  cases type with
  | string =>
    obtain ⟨text, htext, rfl⟩ := Codec.Lawful.lift_read_eq_ok_iff.mp h
    obtain ⟨payload, hpayload, hdecode⟩ := Codec.string_read_eq_ok_iff.mp htext
    have hlen := Delimited.readBytes_length hpayload
    rw [← Utf8.encode_of_decode? hdecode] at hlen
    exact hlen
  | bytes =>
    obtain ⟨payload, hpayload, rfl⟩ := Codec.Lawful.lift_read_eq_ok_iff.mp h
    exact Delimited.readBytes_length hpayload
  | _ =>
    obtain ⟨a, -, rfl⟩ := Codec.Lawful.lift_read_eq_ok_iff.mp h
    simpa [ScalarValue.content] using hshort

end Scalar

namespace FieldType

theorem holds_of_read {t : FieldType} (ht : t.isMessage = false) {bytes rest : Bytes}
    {value : ScalarValue} (h : t.codec.read bytes = .ok (value, rest)) : t.Holds value := by
  cases t with
  | scalar type => exact type.holds_of_read h
  | enum index => exact Scalar.int32.holds_of_read h
  | message index => cases ht

theorem content_lt {t : FieldType} {bytes rest : Bytes} {value : ScalarValue}
    (h : t.codec.read bytes = .ok (value, rest)) : value.content + rest.length < bytes.length := by
  cases t with
  | scalar type => exact type.content_lt h
  | enum index => exact Scalar.int32.content_lt h
  | message index => exact Scalar.int32.content_lt h

end FieldType

namespace Record

/-! ### Mass -/

/-- How many bytes these values are read from at the least. -/
def massOfScalars : List ScalarValue → Nat
  | [] => 0
  | value :: rest => value.content + 1 + massOfScalars rest

mutual

/-- How many bytes the value of a field is read from at the least. What is left out when it is
written need not be read. -/
def valueMass (s : Schema) (f : Field) : FieldValue → Nat
  | .absent => 0
  | .scalar value => if isOmitted f value then 0 else value.content + 1
  | .scalars values => massOfScalars values
  | .message record => mass s (s.fieldsInside f) record + 1
  | .messages records => massOfEach s f records

/-- How many bytes a record is read from at the least. -/
def mass (s : Schema) (fields : List Field) : List FieldValue → Nat
  | [] => 0
  | value :: rest =>
    match fields with
    | [] => 0
    | f :: others => valueMass s f value + mass s others rest

def massOfEach (s : Schema) (f : Field) : List (List FieldValue) → Nat
  | [] => 0
  | record :: rest => mass s (s.fieldsInside f) record + 1 + massOfEach s f rest

end

theorem massOfScalars_append (values more : List ScalarValue) :
    massOfScalars (values ++ more) = massOfScalars values + massOfScalars more := by
  induction values with
  | nil => simp [massOfScalars]
  | cons value rest ih => simp [massOfScalars, ih, Nat.add_assoc]

theorem massOfEach_append (s : Schema) (f : Field) (records more : List Record) :
    massOfEach s f (records ++ more) = massOfEach s f records + massOfEach s f more := by
  induction records with
  | nil => simp [massOfEach]
  | cons record rest ih => simp [massOfEach, ih, Nat.add_assoc]

/-- A message that nothing was read into is paid for by no bytes. -/
theorem mass_unset {s : Schema} {fields : List Field} (h : ∀ f ∈ fields, f.WellFormed) :
    mass s fields (fields.map Field.unset) = 0 := by
  induction fields with
  | nil => rfl
  | cons f others ih =>
    have hrest := ih fun g hg => h g (List.mem_cons_of_mem f hg)
    have hfirst : valueMass s f f.unset = 0 := by
      unfold Field.unset
      cases hcard : f.cardinality with
      | optional => rfl
      | required => rfl
      | implicit =>
        have hzero := FieldType.isZero_zero f.type
        simp [valueMass, isOmitted, hcard, hzero]
      | repeated => cases f.type.isMessage <;> rfl
    rw [List.map_cons, mass, hfirst, hrest]

/-! ### Setting one field -/

section
variable {s : Schema} {fields : List Field} {m : Record} {i : Nat} {f : Field}
  {old new : FieldValue}

theorem Fits.set (h : Fits s fields m) (hf : fields[i]? = some f) (hnew : FitsField s f new) :
    Fits s fields (m.set i new) := by
  induction m generalizing fields i with
  | nil => exact h
  | cons value rest ih =>
    cases fields with
    | nil => exact h.elim
    | cons g others =>
      have h' : FitsField s g value ∧ Fits s others rest := h
      cases i with
      | zero =>
        simp only [List.getElem?_cons_zero, Option.some.injEq] at hf
        subst hf
        exact ⟨hnew, h'.2⟩
      | succ i =>
        rw [List.getElem?_cons_succ] at hf
        exact ⟨h'.1, ih h'.2 hf⟩

theorem depth_set_le {bound : Nat} (h : depth m ≤ bound) (hnew : valueDepth new ≤ bound) :
    depth (m.set i new) ≤ bound := by
  rw [depth_le_iff] at h ⊢
  intro value hvalue
  rcases List.mem_or_eq_of_mem_set hvalue with hmem | rfl
  · exact h value hmem
  · exact hnew

/-- The other fields keep their mass. -/
theorem mass_set (hf : fields[i]? = some f) (hold : m[i]? = some old) :
    mass s fields (m.set i new) + valueMass s f old = mass s fields m + valueMass s f new := by
  induction m generalizing fields i with
  | nil => simp at hold
  | cons value rest ih =>
    cases fields with
    | nil => simp at hf
    | cons g others =>
      cases i with
      | zero =>
        simp only [List.getElem?_cons_zero, Option.some.injEq] at hf hold
        subst hf hold
        rw [List.set_cons_zero, mass, mass]
        omega
      | succ i =>
        rw [List.getElem?_cons_succ] at hf hold
        rw [List.set_cons_succ, mass, mass]
        have := ih hf hold
        omega

end

/-! ### Part way through -/

/-- A record part way through being read: it is a value of its type, nests no deeper than the
budget, and its mass and the bytes still to be read are no more than there were in all. -/
structure Reading (s : Schema) (type budget total : Nat) (m : Record) (bytes : Bytes) : Prop where
  typed : HasType s type m
  shallow : depth m ≤ budget
  paid : mass s (s.fields type) m + bytes.length ≤ total

/-- The same of the value of a field. -/
structure ReadingField (s : Schema) (f : Field) (budget total : Nat) (value : FieldValue)
    (bytes : Bytes) : Prop where
  fits : FitsField s f value
  shallow : valueDepth value ≤ budget
  paid : valueMass s f value + bytes.length ≤ total

/-- What the reader of messages inside others owes: from a message with one level less it gives one
that nests less than the budget, and at least one byte was not for its mass but for its length. -/
def NestedReads (s : Schema) (nested : Nested) (budget : Nat) : Prop :=
  ∀ ⦃type total : Nat⦄ ⦃old new : Record⦄ ⦃bytes rest : Bytes⦄,
    nested type old bytes = ⟨new, .ok rest⟩ → Reading s type (budget - 1) total old bytes →
      HasType s type new ∧ depth new < budget ∧ mass s (s.fields type) new + rest.length < total

section
variable {s : Schema} {f : Field} {budget total type : Nat} {nested : Nested}
  {wireType : WireType} {bytes rest : Bytes} {old new : FieldValue}

/-! ### Scalars -/

theorem merge_reading (hcard : f.cardinality ≠ .repeated) (htype : f.type.isMessage = false)
    {before value : ScalarValue} (h : f.type.codec.merge wireType before bytes = ⟨value, .ok rest⟩)
    (hold : ReadingField s f budget total old bytes) :
    ReadingField s f budget total (.scalar value) rest := by
  obtain ⟨-, hread⟩ := Codec.Lawful.merge_eq_ok_iff.mp h
  refine ⟨⟨hcard, FieldType.holds_of_read htype hread⟩, Nat.zero_le budget, ?_⟩
  have hmass : valueMass s f (.scalar value) ≤ value.content + 1 := by
    rw [valueMass]
    split <;> omega
  have hcontent := FieldType.content_lt hread
  have hpaid := hold.paid
  omega

theorem append_reading (hcard : f.cardinality = .repeated) (htype : f.type.isMessage = false)
    {values result : List ScalarValue} (h : f.type.codec.append values bytes = ⟨result, .ok rest⟩)
    (hold : ReadingField s f budget total (.scalars values) bytes) :
    ReadingField s f budget total (.scalars result) rest := by
  obtain ⟨value, hread, rfl⟩ := Codec.Lawful.append_eq_ok_iff.mp h
  obtain ⟨⟨-, -, hholds⟩, -, hpaid⟩ := hold
  refine ⟨⟨hcard, htype, ?_⟩, Nat.zero_le budget, ?_⟩
  · intro v hv
    rcases List.mem_append.mp hv with hv | hv
    · exact hholds v hv
    · rw [List.mem_singleton.mp hv]
      exact FieldType.holds_of_read htype hread
  · have hcontent := FieldType.content_lt hread
    rw [valueMass] at hpaid ⊢
    rw [massOfScalars_append, massOfScalars, massOfScalars]
    omega

/-- A single value or a packed run of them, whichever the bytes have. -/
theorem mergeRepeated_reading (hcard : f.cardinality = .repeated)
    (htype : f.type.isMessage = false) {values result : List ScalarValue}
    (h : f.type.codec.mergeRepeated wireType values bytes = ⟨result, .ok rest⟩)
    (hold : ReadingField s f budget total (.scalars values) bytes) :
    ReadingField s f budget total (.scalars result) rest := by
  unfold Codec.mergeRepeated checkWireType at h
  split at h
  · -- A run is read from its window; what follows the window is put aside meanwhile.
    have hadvances := f.type.codec_lawful.append_advances
    obtain ⟨p, window, rfl, hp, -⟩ := Delimited.exists_window_of_mergeDelimited hadvances h
    have hrun := ((Delimited.mergeDelimited_window hadvances hp).mp h).2
    have hpaid := hold.paid
    simp only [List.length_append] at hpaid
    have hstart : ReadingField s f budget (total - rest.length) (.scalars values) window :=
      ⟨hold.fits, hold.shallow, by omega⟩
    have hend := hrun.invariant (fun hstep hs => append_reading hcard htype hstep hs) hstart
    have hpaid' := hend.paid
    rw [List.length_nil] at hpaid'
    exact ⟨hend.fits, hend.shallow, by omega⟩
  · by_cases hwire : f.type.codec.wireType = wireType
    · simp only [hwire, if_true] at h
      exact append_reading hcard htype h hold
    · simp [hwire] at h

/-! ### Messages -/

theorem depth_unset (fields : List Field) : depth (fields.map Field.unset) = 0 := by
  refine Nat.le_zero.mp (depth_le_iff.mpr fun value hvalue => ?_)
  obtain ⟨f, -, rfl⟩ := List.mem_map.mp hvalue
  unfold Field.unset
  cases f.cardinality with
  | repeated => cases f.type.isMessage <;> exact Nat.le_refl 0
  | _ => exact Nat.le_refl 0

/-- Reading starts with nothing but the bytes. -/
theorem unset_reading (hs : s.WellFormed) (type budget : Nat) (bytes : Bytes) :
    Reading s type budget bytes.length (s.unsetRecord type) bytes where
  typed := unset_hasType hs type
  shallow := by
    rw [Schema.unsetRecord, depth_unset]
    exact Nat.zero_le budget
  paid := by
    rw [Schema.unsetRecord, mass_unset fun f hf => hs.field hf, Nat.zero_add]

/-- A message that was read is paid for as the value of its field. -/
theorem message_reading (hn : NestedReads s nested budget) (hcard : f.cardinality ≠ .repeated)
    {index : Nat} (htype : f.type = .message index) {before record : Record}
    (h : nested index before bytes = ⟨record, .ok rest⟩)
    (hbefore : Reading s index (budget - 1) total before bytes) :
    ReadingField s f budget total (.message record) rest := by
  obtain ⟨htyped, hshallow, hpaid⟩ := hn h hbefore
  refine ⟨⟨hcard, by rw [htype]; rfl, ?_⟩, ?_, ?_⟩
  · rw [fieldsInside_eq htype]
    exact htyped
  · rw [valueDepth]
    exact hshallow
  · rw [valueMass, fieldsInside_eq htype]
    omega

theorem ReadingField.mono {total' : Nat} (h : ReadingField s f budget total new rest)
    (hle : total ≤ total') : ReadingField s f budget total' new rest :=
  ⟨h.fits, h.shallow, Nat.le_trans h.paid hle⟩

theorem mergeMessage_reading (hs : s.WellFormed) (hn : NestedReads s nested budget)
    (hcard : f.cardinality ≠ .repeated) {index : Nat} (htype : f.type = .message index)
    (h : mergeMessage s nested index wireType old bytes = ⟨new, .ok rest⟩)
    (hold : ReadingField s f budget total old bytes) : ReadingField s f budget total new rest := by
  obtain ⟨-, record, hnested, rfl⟩ := mergeMessage_eq_ok_iff.mp h
  obtain ⟨hfits, hshallow, hpaid⟩ := hold
  cases old with
  | message before =>
    rw [valueDepth] at hshallow
    rw [valueMass, fieldsInside_eq htype] at hpaid
    have htyped := toRecord_hasType hs htype hfits
    have hbefore : Reading s index (budget - 1) (total - 1) before bytes :=
      ⟨htyped, by omega, by omega⟩
    exact (message_reading hn hcard htype hnested hbefore).mono (Nat.sub_le total 1)
  | _ =>
    have hbefore := unset_reading hs index (budget - 1) bytes
    exact (message_reading hn hcard htype hnested hbefore).mono (by omega)

/-! ### Lists of messages -/

theorem FitEach.append {records : List Record} (h : FitEach s f records) {record : Record}
    (hrecord : Fits s (s.fieldsInside f) record) : FitEach s f (records ++ [record]) := by
  induction records with
  | nil => exact ⟨hrecord, trivial⟩
  | cons first others ih => exact ⟨h.1, ih h.2⟩

theorem depthOfEach_append (records : List Record) (record : Record) :
    depthOfEach (records ++ [record]) = max (depthOfEach records) (depth record + 1) := by
  induction records with
  | nil => simp [depthOfEach]
  | cons first others ih => simp [depthOfEach, ih, Nat.max_assoc]

theorem appendMessage_reading (hs : s.WellFormed) (hn : NestedReads s nested budget)
    (hcard : f.cardinality = .repeated) {index : Nat} (htype : f.type = .message index)
    (h : appendMessage s nested index wireType old bytes = ⟨new, .ok rest⟩)
    (hold : ReadingField s f budget total old bytes) : ReadingField s f budget total new rest := by
  obtain ⟨-, record, hnested, rfl⟩ := appendMessage_eq_ok_iff.mp h
  have hmessage : f.type.isMessage = true := by rw [htype]; rfl
  obtain ⟨htyped, hdepth, hmass⟩ := hn hnested (unset_reading hs index (budget - 1) bytes)
  obtain ⟨records, rfl⟩ : ∃ records, old = .messages records :=
    ⟨_, eq_messages hcard hmessage hold.fits⟩
  obtain ⟨hfits, hshallow, hpaid⟩ := hold
  rw [valueDepth] at hshallow
  rw [valueMass] at hpaid
  rw [FieldValue.toRecords]
  refine ⟨⟨hcard, hmessage, hfits.2.2.append ?_⟩, ?_, ?_⟩
  · rw [fieldsInside_eq htype]
    exact htyped
  · rw [valueDepth, depthOfEach_append]
    omega
  · rw [valueMass, massOfEach_append, massOfEach, massOfEach, fieldsInside_eq htype]
    omega

/-! ### Any field, and the messages inside -/

/-- What merging the payload of a field comes to, if it succeeds: a message is appended or merged,
or scalars are. -/
theorem mergeValue_cases (h : mergeValue s nested f wireType old bytes = ⟨new, .ok rest⟩) :
    (∃ index, f.type = .message index ∧
      (f.cardinality = .repeated ∧
          appendMessage s nested index wireType old bytes = ⟨new, .ok rest⟩ ∨
        f.cardinality ≠ .repeated ∧
          mergeMessage s nested index wireType old bytes = ⟨new, .ok rest⟩)) ∨
    f.type.isMessage = false ∧
      ((f.cardinality = .repeated ∧ ∃ values, new = .scalars values ∧
          f.type.codec.mergeRepeated wireType old.toScalars bytes = ⟨values, .ok rest⟩) ∨
        f.cardinality ≠ .repeated ∧ ∃ value, new = .scalar value ∧
          f.type.codec.merge wireType (old.toScalar f.type.codec.zero) bytes =
            ⟨value, .ok rest⟩) := by
  cases htype : f.type.isMessage with
  | true =>
    obtain ⟨index, hindex⟩ := exists_message_type htype
    refine .inl ⟨index, hindex, ?_⟩
    by_cases hcard : f.cardinality = .repeated
    · exact .inl ⟨hcard, by simpa [mergeValue, hindex, Field.isRepeated, hcard] using h⟩
    · exact .inr ⟨hcard, by simpa [mergeValue, hindex, Field.isRepeated, hcard] using h⟩
  | false =>
    rw [mergeValue_scalar htype] at h
    refine .inr ⟨rfl, ?_⟩
    by_cases hcard : f.cardinality = .repeated
    · rw [if_pos (by simp [Field.isRepeated, hcard])] at h
      obtain ⟨values, hvalues, hnew⟩ := Merged.map_eq_ok_iff.mp h
      exact .inl ⟨hcard, values, hnew, hvalues⟩
    · rw [if_neg (by simp [Field.isRepeated, hcard])] at h
      obtain ⟨value, hvalue, hnew⟩ := Merged.map_eq_ok_iff.mp h
      exact .inr ⟨hcard, value, hnew, hvalue⟩

theorem mergeValue_reading (hs : s.WellFormed) (hn : NestedReads s nested budget)
    (h : mergeValue s nested f wireType old bytes = ⟨new, .ok rest⟩)
    (hold : ReadingField s f budget total old bytes) : ReadingField s f budget total new rest := by
  rcases mergeValue_cases h with ⟨index, hindex, hmessage⟩ | ⟨htype, hscalar⟩
  · rcases hmessage with ⟨hcard, happend⟩ | ⟨hcard, hmerge⟩
    · exact appendMessage_reading hs hn hcard hindex happend hold
    · exact mergeMessage_reading hs hn hcard hindex hmerge hold
  · rcases hscalar with ⟨hcard, values, rfl, hvalues⟩ | ⟨hcard, value, rfl, hvalue⟩
    · rw [eq_scalars hcard htype hold.fits] at hold
      exact mergeRepeated_reading hcard htype hvalues hold
    · exact merge_reading hcard htype hvalue hold

/-- One field, known or not, keeps it. -/
theorem mergeFieldWith_reading (hs : s.WellFormed) (hn : NestedReads s nested budget)
    {m m' : Record} {number : Nat}
    (h : mergeFieldWith s nested budget type m number wireType bytes = ⟨m', .ok rest⟩)
    (hm : Reading s type budget total m bytes) : Reading s type budget total m' rest := by
  unfold mergeFieldWith at h
  split at h
  · simp only [Merged.mk.injEq] at h
    obtain ⟨rfl, hskip⟩ := h
    have hle := (Skip.field_local budget wireType number).length_le
      (show Skip.takes _ bytes () rest from hskip)
    have hpaid := hm.paid
    exact ⟨hm.typed, hm.shallow, by omega⟩
  · rename_i index _
    split at h
    · rename_i f value hf hvalue
      obtain ⟨new, hnew, rfl⟩ := Merged.map_eq_ok_iff.mp h
      have hpaid := hm.paid
      have hset : mass s (s.fields type) (m.set index new) + valueMass s f value =
          mass s (s.fields type) m + valueMass s f new := mass_set hf hvalue
      have hbefore : ReadingField s f budget (valueMass s f value + bytes.length) value bytes :=
        ⟨hm.typed.field hf hvalue, depth_le_iff.mp hm.shallow value (List.mem_of_getElem? hvalue),
          Nat.le_refl _⟩
      have hafter := mergeValue_reading hs hn hnew hbefore
      have hpaid' := hafter.paid
      exact ⟨hm.typed.set hf hafter.fits, depth_set_le hm.shallow hafter.shallow, by omega⟩
    · cases h
      exact hm

theorem mergeNextWith_reading (hs : s.WellFormed) (hn : NestedReads s nested budget) {m m' : Record}
    (h : mergeNextWith s nested budget type m bytes = ⟨m', .ok rest⟩)
    (hm : Reading s type budget total m bytes) : Reading s type budget total m' rest := by
  obtain ⟨field, mid, hkey, hfield⟩ := mergeNextWith_eq_ok_iff.mp h
  have hlt := Key.decode_length_lt hkey
  have hpaid := hm.paid
  have hmid : Reading s type budget total m mid := ⟨hm.typed, hm.shallow, by omega⟩
  exact mergeFieldWith_reading hs hn hfield hmid

/-- Messages inside others keep it, at every depth that the budget allows. -/
theorem nestedReads (hs : s.WellFormed) (budget : Nat) :
    NestedReads s (mergeNested s budget) budget := by
  induction budget with
  | zero =>
    intro type total old new bytes rest h
    simp [mergeNested] at h
  | succ budget ih =>
    intro type total old new bytes rest h hold
    obtain ⟨p, window, rfl, hp, hne⟩ :=
      Delimited.exists_window_of_mergeDelimited (mergeNext_advances s budget type) h
    have hrun := ((mergeNested_window hp).mp h).2.2
    have hpos := List.length_pos_iff.mpr hne
    have hpaid := hold.paid
    simp only [List.length_append] at hpaid
    have hstart : Reading s type budget (total - p.length - rest.length) old window :=
      ⟨hold.typed, hold.shallow, by omega⟩
    have hend := hrun.invariant (fun hstep hs' => mergeNextWith_reading hs ih hstep hs') hstart
    have hpaid' := hend.paid
    rw [List.length_nil] at hpaid'
    exact ⟨hend.typed, Nat.lt_succ_of_le hend.shallow, by omega⟩

/-- **What is merged into an unset message is a value of its type**, nested no deeper than the
limit, and of no more mass than there were bytes. -/
theorem merge_unset_reading (hs : s.WellFormed) {m : Record}
    (h : merge s type (s.unsetRecord type) bytes = ⟨m, .ok rest⟩) :
    Reading s type recursionLimit bytes.length m [] := by
  have hrun := (merge_eq_ok_iff.mp h).2
  exact hrun.invariant
    (fun hstep hm => mergeNextWith_reading hs (nestedReads hs recursionLimit) hstep hm)
    (unset_reading hs type recursionLimit bytes)

end

end Record

end Protobuf

import Protobuf.Proofs.Record.Values
import Protobuf.Proofs.Wire.FieldLaws
import Protobuf.Record.Encode

/-! The length of a message is found without writing it.

Lengths are computed by functions of their own, which follow the values as the writers do, and a
message inside another is written behind the length computed for it. The two agree
(`length_inOrder_parts`), so every such length announces exactly the payload behind it. Lengths are
words of 64 bits: all this is asked of messages whose length is one. -/
namespace Protobuf.Record

/-- The order of the parts does not matter for their length. -/
theorem length_inOrder (parts : List (Nat × Bytes)) :
    (inOrder parts).length = (parts.map fun part => part.2.length).sum := by
  unfold inOrder
  rw [List.length_flatMap]
  exact ((List.mergeSort_perm parts _).map _).sum_nat

theorem length_delimited (number : Nat) {length : Nat} {payload : Bytes}
    (hlen : payload.length = length) (h : delimitedLen number length < 2 ^ 64) :
    (delimited number length payload).length = delimitedLen number length := by
  rw [delimitedLen] at h ⊢
  rw [delimited, List.length_append, List.length_append, Key.length_encode,
    Varint.length_encode (by omega), hlen]

mutual

theorem length_encodeField (s : Schema) (f : Field) : (value : FieldValue) →
    fieldLen s f value < 2 ^ 64 → (encodeField s f value).length = fieldLen s f value
  | .absent, _ => rfl
  | .scalar value, h => by
    rw [fieldLen] at h ⊢
    rw [encodeField]
    split at h
    · rename_i homit
      rw [if_pos homit, if_pos homit]
      rfl
    · rename_i homit
      rw [if_neg homit, if_neg homit]
      exact f.type.codec_lawful.length_encode f.number value h
  | .scalars values, h => by
    rw [fieldLen] at h ⊢
    rw [encodeField]
    split at h
    · rename_i hpacked
      rw [if_pos hpacked, if_pos hpacked]
      exact f.type.codec_lawful.length_encodePacked f.number h
    · rename_i hpacked
      rw [if_neg hpacked, if_neg hpacked]
      exact f.type.codec_lawful.length_encodeRepeated f.number h
  | .message record, h => by
    rw [fieldLen] at h ⊢
    have hlen := length_parts s (s.fieldsInside f) record (by rw [delimitedLen] at h; omega)
    rw [← length_inOrder] at hlen
    rw [encodeField]
    exact length_delimited f.number hlen h
  | .messages records, h => by
    rw [fieldLen] at h ⊢
    rw [encodeField]
    exact length_encodeAll s f records h

theorem length_parts (s : Schema) (fields : List Field) : (record : List FieldValue) →
    lenOf s fields record < 2 ^ 64 →
      ((parts s fields record).map fun part => part.2.length).sum = lenOf s fields record
  | [], _ => rfl
  | value :: rest, h => by
    cases fields with
    | nil => rfl
    | cons f others =>
      rw [lenOf] at h ⊢
      rw [parts, List.map_cons, List.sum_cons, length_encodeField s f value (by omega),
        length_parts s others rest (by omega)]

theorem length_encodeAll (s : Schema) (f : Field) : (records : List (List FieldValue)) →
    lenOfAll s f records < 2 ^ 64 → (encodeAll s f records).length = lenOfAll s f records
  | [], _ => rfl
  | record :: rest, h => by
    rw [lenOfAll] at h ⊢
    have hlen := length_parts s (s.fieldsInside f) record (by rw [delimitedLen] at h; omega)
    rw [← length_inOrder] at hlen
    rw [encodeAll, List.length_append, length_encodeAll s f rest (by omega),
      length_delimited f.number hlen (by omega)]

end

/-- The length of a message is the one announced for it. -/
theorem length_inOrder_parts (s : Schema) (fields : List Field) (record : Record)
    (h : lenOf s fields record < 2 ^ 64) :
    (inOrder (parts s fields record)).length = lenOf s fields record := by
  rw [length_inOrder, length_parts s fields record h]

/-! ### Messages inside others -/

theorem fieldLen_le_lenOf {s : Schema} {fields : List Field} {record : Record} {f : Field}
    {value : FieldValue} (h : (f, value) ∈ fields.zip record) :
    fieldLen s f value ≤ lenOf s fields record := by
  induction record generalizing fields with
  | nil => simp at h
  | cons first rest ih =>
    cases fields with
    | nil => simp at h
    | cons g others =>
      rw [lenOf]
      rcases List.mem_cons.mp h with hfirst | hrest
      · cases hfirst
        omega
      · have := ih hrest
        omega

theorem lenOf_le_lenOfAll {s : Schema} {f : Field} {records : List Record} {inner : Record}
    (h : inner ∈ records) : lenOf s (s.fieldsInside f) inner ≤ lenOfAll s f records := by
  induction records with
  | nil => cases h
  | cons first rest ih =>
    rw [lenOfAll, delimitedLen]
    rcases List.mem_cons.mp h with rfl | hrest
    · omega
    · have := ih hrest
      omega

theorem lenOf_le_fieldLen {s : Schema} {f : Field} {value : FieldValue} {inner : Record}
    (h : inner ∈ value.records) : lenOf s (s.fieldsInside f) inner ≤ fieldLen s f value := by
  cases value with
  | message record =>
    rw [List.mem_singleton.mp h, fieldLen, delimitedLen]
    omega
  | messages records =>
    rw [fieldLen]
    exact lenOf_le_lenOfAll h
  | absent => cases h
  | scalar value => cases h
  | scalars values => cases h

theorem Occurs.fieldLen_le {s : Schema} {fields : List Field} {record : Record} {f : Field}
    {value : FieldValue} (h : Occurs s fields record f value) :
    fieldLen s f value ≤ lenOf s fields record := by
  induction h with
  | here hmem => exact fieldLen_le_lenOf hmem
  | inside hmem hinner _ ih =>
    exact Nat.le_trans ih (Nat.le_trans (lenOf_le_fieldLen hinner) (fieldLen_le_lenOf hmem))

theorem encodeAll_eq (s : Schema) (f : Field) (records : List Record) :
    encodeAll s f records = records.flatMap fun inner =>
      delimited f.number (lenOf s (s.fieldsInside f) inner)
        (inOrder (parts s (s.fieldsInside f) inner)) := by
  induction records with
  | nil => rfl
  | cons inner rest ih => rw [encodeAll, List.flatMap_cons, ih]

/-- A field with messages is each of them behind the length announced for it. -/
theorem encodeField_records (s : Schema) (f : Field) {value : FieldValue}
    (h : value.records ≠ []) :
    encodeField s f value = value.records.flatMap fun inner =>
      delimited f.number (lenOf s (s.fieldsInside f) inner)
        (inOrder (parts s (s.fieldsInside f) inner)) := by
  cases value with
  | message record => simp [encodeField, FieldValue.records]
  | messages records =>
    rw [encodeField]
    exact encodeAll_eq s f records
  | absent => exact absurd rfl h
  | scalar value => exact absurd rfl h
  | scalars values => exact absurd rfl h

/-! ### Messages -/

/-- **The computed length of a message is exact**, as long as it is a word of 64 bits, as lengths on
the wire are. It is the number of bytes written; each message at any depth in it is written behind
the length of its own payload; and a buffer either has room for all of it, or nothing is written and
the error names the length and the room. -/
theorem encodedLen_exact (s : Schema) (type : Nat) (m : Record)
    (h : encodedLen s type m < 2 ^ 64) :
    (encode s type m).length = encodedLen s type m ∧
      (∀ f value, Occurs s (s.fields type) m f value → value.records ≠ [] →
        encodeField s f value = value.records.flatMap fun inner =>
          delimited f.number (inOrder (parts s (s.fieldsInside f) inner)).length
            (inOrder (parts s (s.fieldsInside f) inner))) ∧
      ∀ capacity,
        (capacity < encodedLen s type m →
          encodeInto s type capacity m = .error ⟨encodedLen s type m, capacity⟩) ∧
        (encodedLen s type m ≤ capacity →
          encodeInto s type capacity m = .ok (encode s type m)) := by
  have hlen : (encode s type m).length = encodedLen s type m :=
    length_inOrder_parts s (s.fields type) m h
  refine ⟨hlen, ?_, fun capacity => ⟨?_, ?_⟩⟩
  · intro f value hoccurs hrecords
    rw [encodeField_records s f hrecords, List.flatMap_def, List.flatMap_def]
    congr 1
    apply List.map_congr_left
    intro inner hinner
    have hle := Nat.le_trans (lenOf_le_fieldLen hinner) hoccurs.fieldLen_le
    rw [length_inOrder_parts s (s.fieldsInside f) inner (Nat.lt_of_le_of_lt hle h)]
  · intro hlt
    rw [encodeInto, within, if_pos hlt]
  · intro hle
    rw [encodeInto, within, if_neg (Nat.not_lt.mpr hle)]

theorem encodedLen_exact_branch :
    encodedLen Tree.schema 1 Tree.branch < 2 ^ 64 ∧
      (encode Tree.schema 1 Tree.branch).length = 33 ∧
      encodeInto Tree.schema 1 32 Tree.branch = .error ⟨33, 32⟩ ∧
      encodeInto Tree.schema 1 33 Tree.branch = .ok (encode Tree.schema 1 Tree.branch) := by
  have h : encodedLen Tree.schema 1 Tree.branch < 2 ^ 64 := by decide
  obtain ⟨hlen, _, hinto⟩ := encodedLen_exact Tree.schema 1 Tree.branch h
  exact ⟨h, hlen, (hinto 32).1 (by decide), (hinto 33).2 (by decide)⟩

end Protobuf.Record

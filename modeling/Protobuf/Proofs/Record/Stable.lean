import Protobuf.Proofs.Record.Reading
import Protobuf.Proofs.Record.RoundTrip

/-! Writing what was decoded.

Whatever the bytes were that a record was decoded from, it has its required fields and nests within
the limit, so that it can be written and read back. The signs of zeros that are then lost are those
that are not written, so that writing the result gives the same bytes again (`encode_normalize`).
The bytes that are written may be more than those that were read: a packed run may have to be
written value by value, and a small negative number takes ten bytes. But they are at most
twenty-five for each one (`lenOf_le_mass`), so that lengths stay words of 64 bits. -/
namespace Protobuf

/-! ### Lost signs -/

theorem ScalarValue.isZero_unsignedZero (value : ScalarValue) :
    value.unsignedZero.isZero = value.isZero := by
  cases hzero : value.isZero with
  | false => rw [unsignedZero_of_ne hzero, hzero]
  | true =>
    cases value with
    | f32 bits =>
      rw [unsignedZero_f32 hzero]
      rfl
    | f64 bits =>
      rw [unsignedZero_f64 hzero]
      rfl
    | _ => exact hzero

namespace Record

/-- A value either keeps its sign or is not written, with the sign or without. -/
theorem normalize_scalar (s : Schema) (f : Field) (value : ScalarValue) :
    normalizeField s f (.scalar value) = .scalar value ∨
      ∃ other, normalizeField s f (.scalar value) = .scalar other ∧ isOmitted f other = true ∧
        isOmitted f value = true := by
  rw [normalizeField]
  by_cases hcard : f.cardinality = .implicit
  · rw [if_pos hcard]
    cases hzero : value.isZero with
    | true =>
      refine .inr ⟨value.unsignedZero, rfl, ?_, ?_⟩
      · rw [isOmitted_iff, value.isZero_unsignedZero]
        exact ⟨hcard, hzero⟩
      · exact isOmitted_iff.mpr ⟨hcard, hzero⟩
    | false => exact .inl (by rw [ScalarValue.unsignedZero_of_ne hzero])
  · exact .inl (by rw [if_neg hcard])

mutual

theorem written_normalizeField (s : Schema) (f : Field) : (value : FieldValue) →
    fieldLen s f (normalizeField s f value) = fieldLen s f value ∧
      encodeField s f (normalizeField s f value) = encodeField s f value
  | .absent => by rw [normalizeField]; exact ⟨rfl, rfl⟩
  | .scalar value => by
    rcases normalize_scalar s f value with hsame | ⟨other, hother, homit, homit'⟩
    · rw [hsame]
      exact ⟨rfl, rfl⟩
    · simp [hother, fieldLen, encodeField, homit, homit']
  | .scalars values => by rw [normalizeField]; exact ⟨rfl, rfl⟩
  | .message record => by
    obtain ⟨hlen, hparts⟩ := written_normalize s (s.fieldsInside f) record
    simp [normalizeField, fieldLen, encodeField, hlen, hparts]
  | .messages records => by
    obtain ⟨hlen, hall⟩ := written_normalizeEach s f records
    simp [normalizeField, fieldLen, encodeField, hlen, hall]

theorem written_normalize (s : Schema) (fields : List Field) : (record : List FieldValue) →
    lenOf s fields (normalize s fields record) = lenOf s fields record ∧
      parts s fields (normalize s fields record) = parts s fields record
  | [] => by rw [normalize]; exact ⟨rfl, rfl⟩
  | value :: rest => by
    cases fields with
    | nil => exact ⟨rfl, rfl⟩
    | cons f others =>
      obtain ⟨hlen, hbytes⟩ := written_normalizeField s f value
      obtain ⟨hlens, hparts⟩ := written_normalize s others rest
      simp [normalize, lenOf, parts, hlen, hbytes, hlens, hparts]

theorem written_normalizeEach (s : Schema) (f : Field) : (records : List (List FieldValue)) →
    lenOfAll s f (normalizeEach s f records) = lenOfAll s f records ∧
      encodeAll s f (normalizeEach s f records) = encodeAll s f records
  | [] => by rw [normalizeEach]; exact ⟨rfl, rfl⟩
  | record :: rest => by
    obtain ⟨hlen, hparts⟩ := written_normalize s (s.fieldsInside f) record
    obtain ⟨hlens, hall⟩ := written_normalizeEach s f rest
    simp [normalizeEach, lenOfAll, encodeAll, hlen, hparts, hlens, hall]

end

/-- The signs that are lost on the wire are not written in the first place. -/
theorem encode_normalize (s : Schema) (type : Nat) (m : Record) :
    encode s type (normalize s (s.fields type) m) = encode s type m := by
  rw [encode, encode, (written_normalize s (s.fields type) m).2]

end Record

/-! ### Lengths -/

theorem Varint.encodedLen_le {n bits : Nat} (h : n < 2 ^ (bits + 1)) :
    encodedLen n ≤ (bits * 9 + 73) / 64 := by
  have hlog : n.log2 ≤ bits := by
    by_cases hzero : n = 0
    · rw [hzero, Nat.log2_zero]
      exact Nat.zero_le bits
    · exact Nat.le_of_lt_succ ((Nat.log2_lt hzero).mpr h)
  rw [encodedLen, log2_max]
  omega

theorem Varint.encodedLen_le_ten {n : Nat} (h : n < 2 ^ 64) : encodedLen n ≤ 10 :=
  encodedLen_le h

theorem Key.encodedLen_le_five (number : Nat) : encodedLen number ≤ 5 := by
  have h : 8 * number % 0x100000000 < 2 ^ 32 := Nat.mod_lt _ (by decide)
  exact Varint.encodedLen_le h

theorem Scalar.size_le (type : Scalar) (value : ScalarValue) (h : value.content < 2 ^ 64) :
    type.codec.size value ≤ value.content + 10 := by
  have hword {n : Nat} (hn : n < 2 ^ 64) : Varint.encodedLen n ≤ value.content + 10 :=
    Nat.le_trans (Varint.encodedLen_le_ten hn) (Nat.le_add_left 10 _)
  have hfixed {width : Nat} (hw : width ≤ 10) : width ≤ value.content + 10 :=
    Nat.le_trans hw (Nat.le_add_left 10 _)
  cases type with
  | double => exact hfixed (by decide : 8 ≤ 10)
  | float => exact hfixed (by decide : 4 ≤ 10)
  | int32 => exact hword (Codec.signedWord_lt _)
  | int64 => exact hword (Codec.signedWord_lt _)
  | uint32 => exact hword (Nat.lt_trans value.toUInt32.toNat_lt (by decide))
  | uint64 => exact hword value.toUInt64.toNat_lt
  | sint32 =>
    have hlt := Codec.zigzag_lt 0x80000000 value.toInt32.le_toInt value.toInt32.toInt_lt
    exact hword (Nat.lt_trans hlt (by decide))
  | sint64 => exact hword (Codec.zigzag_lt (2 ^ 63) value.toInt64.le_toInt value.toInt64.toInt_lt)
  | fixed32 => exact hfixed (by decide : 4 ≤ 10)
  | fixed64 => exact hfixed (by decide : 8 ≤ 10)
  | sfixed32 => exact hfixed (by decide : 4 ≤ 10)
  | sfixed64 => exact hfixed (by decide : 8 ≤ 10)
  | bool => exact hword (by cases value.toBool <;> decide)
  | string =>
    have hlen : (Utf8.encode value.toText).length ≤ value.content := by
      cases value with
      | string text => exact Nat.le_refl _
      | _ => exact Nat.zero_le _
    have hten := Varint.encodedLen_le_ten (Nat.lt_of_le_of_lt hlen h)
    show Varint.encodedLen _ + (Utf8.encode value.toText).length ≤ _
    omega
  | bytes =>
    have hlen : value.toBytes.length ≤ value.content := by
      cases value with
      | bytes text => exact Nat.le_refl _
      | _ => exact Nat.zero_le _
    have hten := Varint.encodedLen_le_ten (Nat.lt_of_le_of_lt hlen h)
    show Varint.encodedLen _ + value.toBytes.length ≤ _
    omega

theorem FieldType.size_le (t : FieldType) (value : ScalarValue) (h : value.content < 2 ^ 64) :
    t.codec.size value ≤ value.content + 10 := by
  cases t with
  | scalar type => exact type.size_le value h
  | enum index => exact Scalar.int32.size_le value h
  | message index => exact Scalar.int32.size_le value h

namespace Record

theorem totalSize_le (t : FieldType) (values : List ScalarValue)
    (h : massOfScalars values < 2 ^ 64) :
    t.codec.totalSize values ≤ 10 * massOfScalars values := by
  induction values with
  | nil => exact Nat.le_refl 0
  | cons value rest ih =>
    rw [massOfScalars] at h
    have hvalue := t.size_le value (by omega)
    have hrest := ih (by omega)
    rw [Codec.totalSize, massOfScalars]
    omega

theorem length_le_mass (values : List ScalarValue) : values.length ≤ massOfScalars values := by
  induction values with
  | nil => exact Nat.le_refl 0
  | cons value rest ih =>
    rw [List.length_cons, massOfScalars]
    omega

theorem delimitedLen_le (number : Nat) {length : Nat} (h : length < 2 ^ 64) :
    delimitedLen number length ≤ length + 15 := by
  have hkey := Key.encodedLen_le_five number
  have hlen := Varint.encodedLen_le_ten h
  rw [delimitedLen]
  omega

mutual

theorem fieldLen_le_mass (s : Schema) (f : Field) : (value : FieldValue) →
    25 * valueMass s f value < 2 ^ 64 → fieldLen s f value ≤ 25 * valueMass s f value
  | .absent, _ => Nat.le_refl 0
  | .scalar value, h => by
    rw [valueMass] at h ⊢
    rw [fieldLen]
    by_cases homit : isOmitted f value = true
    · rw [if_pos homit, if_pos homit]
    · rw [if_neg homit] at h ⊢
      rw [if_neg homit, Codec.encodedLen]
      have hkey := Key.encodedLen_le_five f.number
      have hsize := f.type.size_le value (by omega)
      omega
  | .scalars values, h => by
    rw [valueMass] at h ⊢
    rw [fieldLen]
    have hkey := Key.encodedLen_le_five f.number
    have htotal := totalSize_le f.type values (by omega)
    have hlength := length_le_mass values
    by_cases hpacked : f.packed = true
    · rw [if_pos hpacked, Codec.encodedLenPacked]
      cases values with
      | nil => exact Nat.le_refl 0
      | cons value rest =>
        rw [List.length_cons] at hlength
        have hlen := Varint.encodedLen_le_ten
          (show f.type.codec.totalSize (value :: rest) < 2 ^ 64 by omega)
        rw [if_neg (by simp)]
        omega
    · rw [if_neg hpacked, Codec.encodedLenRepeated]
      have hkeys := Nat.mul_le_mul hkey hlength
      omega
  | .message record, h => by
    rw [valueMass] at h ⊢
    have hrecord := lenOf_le_mass s (s.fieldsInside f) record (by omega)
    have hdelimited := delimitedLen_le f.number
      (show lenOf s (s.fieldsInside f) record < 2 ^ 64 by omega)
    rw [fieldLen]
    omega
  | .messages records, h => by
    rw [valueMass] at h ⊢
    rw [fieldLen]
    exact lenOfAll_le_mass s f records h

/-- A record is written with at most twenty-five bytes for each one that it is read from. -/
theorem lenOf_le_mass (s : Schema) (fields : List Field) : (record : List FieldValue) →
    25 * mass s fields record < 2 ^ 64 → lenOf s fields record ≤ 25 * mass s fields record
  | [], _ => Nat.le_refl 0
  | value :: rest, h => by
    cases fields with
    | nil => exact Nat.le_refl 0
    | cons f others =>
      rw [mass] at h ⊢
      have hvalue := fieldLen_le_mass s f value (by omega)
      have hrest := lenOf_le_mass s others rest (by omega)
      rw [lenOf]
      omega

theorem lenOfAll_le_mass (s : Schema) (f : Field) : (records : List (List FieldValue)) →
    25 * massOfEach s f records < 2 ^ 64 → lenOfAll s f records ≤ 25 * massOfEach s f records
  | [], _ => Nat.le_refl 0
  | record :: rest, h => by
    rw [massOfEach] at h ⊢
    have hrecord := lenOf_le_mass s (s.fieldsInside f) record (by omega)
    have hdelimited := delimitedLen_le f.number
      (show lenOf s (s.fieldsInside f) record < 2 ^ 64 by omega)
    have hrest := lenOfAll_le_mass s f rest (by omega)
    rw [lenOfAll]
    omega

end

/-! ### Decoding -/

theorem decode_eq_ok_iff {s : Schema} {type : Nat} {bytes : Bytes} {m : Record} :
    decode s type bytes = .ok m ↔
      merge s type (s.unsetRecord type) bytes = ⟨m, .ok []⟩ ∧
        RequiredSet s (s.fields type) m := by
  rw [← check_eq_ok_iff, decode, complete]
  cases hmerge : merge s type (s.unsetRecord type) bytes with
  | mk state r =>
    cases r with
    | error e => simp
    | ok rest =>
      obtain ⟨rfl, -⟩ := merge_eq_ok_iff.mp hmerge
      cases hcheck : check s type state with
      | error e =>
        simp only [reduceCtorEq, Merged.mk.injEq, and_true, false_iff]
        rintro ⟨rfl, hok⟩
        rw [hcheck] at hok
        cases hok
      | ok found =>
        simp only [Except.ok.injEq, Merged.mk.injEq, and_true]
        constructor
        · rintro rfl
          exact ⟨rfl, hcheck⟩
        · exact fun h => h.1

/-- **What was decoded can be written and decoded again, and then stays as it is**, from whatever
bytes it came. It has all required fields, at every depth, and nests at most a hundred levels deep;
decoding what is written of it gives it back without the signs of zeros that are not written, and
writing that gives the same bytes. The length of the bytes is to be a word of 64 bits, which it is
if less than 2 ^ 59 bytes were decoded. -/
theorem decode_stable {files : List LoadedFile} {s : Schema} (hlink : Linking.link files = .ok s)
    (type : Nat) {bytes : Bytes} {m : Record} (h : decode s type bytes = .ok m) :
    RequiredSet s (s.fields type) m ∧ depth m ≤ 100 ∧
      (encodedLen s type m < 2 ^ 64 →
        decode s type (encode s type m) = .ok (normalize s (s.fields type) m)) ∧
      encode s type (normalize s (s.fields type) m) = encode s type m ∧
      (bytes.length < 2 ^ 59 → encodedLen s type m < 2 ^ 64) := by
  have hs := Linking.wellFormed_of_link hlink
  obtain ⟨hmerge, hrequired⟩ := decode_eq_ok_iff.mp h
  obtain ⟨htyped, hshallow, hpaid⟩ := merge_unset_reading hs hmerge
  refine ⟨hrequired, hshallow, ?_, encode_normalize s type m, ?_⟩
  · intro hlen
    rw [decode, merge_unset hs htyped hlen hshallow, complete_normalize hrequired]
  · intro hshort
    rw [List.length_nil] at hpaid
    have hle := lenOf_le_mass s (s.fields type) m (by omega)
    rw [encodedLen]
    omega

/-- Ports come one by one with a longer varint than need be, then a field that nodes do not have,
then a weight of negative zero. The weight is not written, and the ports are packed. -/
theorem decode_stable_node :
    Linking.link Tree.files = .ok Tree.schema ∧
      decode Tree.schema 1
          [0x28, 0x87, 0x00, 0x28, 0x01, 0x30, 0x01, 0x11, 0, 0, 0, 0, 0, 0, 0, 0x80] =
        .ok [.absent, .scalar (.f64 0x8000000000000000), .messages [], .scalars [.u32 7, .u32 1],
          .absent] ∧
      decode Tree.schema 1 (encode Tree.schema 1
          [.absent, .scalar (.f64 0x8000000000000000), .messages [], .scalars [.u32 7, .u32 1],
            .absent]) =
        .ok [.absent, .scalar (.f64 0), .messages [], .scalars [.u32 7, .u32 1], .absent] := by
  have hdecode : decode Tree.schema 1
      [0x28, 0x87, 0x00, 0x28, 0x01, 0x30, 0x01, 0x11, 0, 0, 0, 0, 0, 0, 0, 0x80] =
        .ok [.absent, .scalar (.f64 0x8000000000000000), .messages [], .scalars [.u32 7, .u32 1],
          .absent] := by
    refine decode_eq_ok_iff.mpr ⟨merge_eq_ok_iff.mpr ⟨rfl, ?_⟩, ?_⟩
    · exact .next (by decide) rfl (.next (by decide) rfl (.next (by decide) rfl
        (.single (by decide) rfl)))
    · simp [RequiredSet, RequiredInside, RequiredSetEach, Schema.fields, Tree.schema, Tree.node]
  obtain ⟨-, -, hback, -, hlen⟩ := decode_stable Tree.link_files 1 hdecode
  exact ⟨Tree.link_files, hdecode, hback (hlen (by decide))⟩

end Record

end Protobuf

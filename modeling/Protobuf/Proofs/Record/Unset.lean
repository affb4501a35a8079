import Protobuf.Proofs.Record.Values
import Protobuf.Proofs.Schema.WellFormed

/-! Messages that nothing was read into.

Decoding merges into such a message, and so does reading a message inside another where there was
none. It is a value of its type (`unset_hasType`), and merging a record into it gives the record
back, but for the signs of zeros that are not written (`combine_unset`): what is left out of the
bytes because it is zero is the zero that was there before. -/
namespace Protobuf

/-! ### Zeros -/

theorem ScalarValue.unsignedZero_f32 {bits : UInt32} (h : (f32 bits).isZero = true) :
    (f32 bits).unsignedZero = f32 0 := by
  have hbits : bits.toNat % 0x80000000 = 0 := eq_of_beq h
  have hlt := bits.toNat_lt
  show (if bits = 0x80000000 then f32 0 else f32 bits) = f32 0
  by_cases hsign : bits = 0x80000000
  · rw [if_pos hsign]
  · have hne : bits.toNat ≠ 0x80000000 := fun hn => hsign (UInt32.toNat_inj.mp hn)
    have hzero : bits = 0 := UInt32.toNat_inj.mp (show bits.toNat = 0 by omega)
    rw [if_neg hsign, hzero]

theorem ScalarValue.unsignedZero_f64 {bits : UInt64} (h : (f64 bits).isZero = true) :
    (f64 bits).unsignedZero = f64 0 := by
  have hbits : bits.toNat % 0x8000000000000000 = 0 := eq_of_beq h
  have hlt := bits.toNat_lt
  show (if bits = 0x8000000000000000 then f64 0 else f64 bits) = f64 0
  by_cases hsign : bits = 0x8000000000000000
  · rw [if_pos hsign]
  · have hne : bits.toNat ≠ 0x8000000000000000 := fun hn => hsign (UInt64.toNat_inj.mp hn)
    have hzero : bits = 0 := UInt64.toNat_inj.mp (show bits.toNat = 0 by omega)
    rw [if_neg hsign, hzero]

/-- Only zeros lose a sign. -/
theorem ScalarValue.unsignedZero_of_ne {value : ScalarValue} (h : value.isZero = false) :
    value.unsignedZero = value := by
  cases value with
  | f32 bits =>
    have hsign : bits ≠ 0x80000000 := by
      intro hbits
      rw [hbits] at h
      cases h
    exact if_neg hsign
  | f64 bits =>
    have hsign : bits ≠ 0x8000000000000000 := by
      intro hbits
      rw [hbits] at h
      cases h
    exact if_neg hsign
  | bool v => rfl
  | i32 v => rfl
  | i64 v => rfl
  | u32 v => rfl
  | u64 v => rfl
  | string v => rfl
  | bytes v => rfl

theorem Scalar.unsignedZero_eq_zero {type : Scalar} {value : ScalarValue} (ht : type.Holds value)
    (h : value.isZero = true) : value.unsignedZero = type.codec.zero := by
  unfold Scalar.Holds at ht
  split at ht
  · exact ScalarValue.unsignedZero_f64 h
  · exact ScalarValue.unsignedZero_f32 h
  · exact congrArg ScalarValue.i32 (eq_of_beq h)
  · exact congrArg ScalarValue.i32 (eq_of_beq h)
  · exact congrArg ScalarValue.i32 (eq_of_beq h)
  · exact congrArg ScalarValue.i64 (eq_of_beq h)
  · exact congrArg ScalarValue.i64 (eq_of_beq h)
  · exact congrArg ScalarValue.i64 (eq_of_beq h)
  · exact congrArg ScalarValue.u32 (eq_of_beq h)
  · exact congrArg ScalarValue.u32 (eq_of_beq h)
  · exact congrArg ScalarValue.u64 (eq_of_beq h)
  · exact congrArg ScalarValue.u64 (eq_of_beq h)
  · exact congrArg ScalarValue.bool ((Bool.not_eq_true' _).mp h)
  · exact congrArg ScalarValue.string (String.isEmpty_iff.mp h)
  · exact congrArg ScalarValue.bytes (List.isEmpty_iff.mp h)
  · exact ht.elim

namespace FieldType

theorem unsignedZero_eq_zero {t : FieldType} {value : ScalarValue} (ht : t.Holds value)
    (h : value.isZero = true) : value.unsignedZero = t.codec.zero := by
  cases t with
  | scalar type => exact Scalar.unsignedZero_eq_zero ht h
  | enum index =>
    have hint : Scalar.int32.Holds value := ht
    exact Scalar.unsignedZero_eq_zero hint h
  | message index => exact ht.elim

theorem holds_zero {t : FieldType} (h : t.isMessage = false) : t.Holds t.codec.zero := by
  cases t with
  | scalar type => cases type <;> exact trivial
  | enum index => exact trivial
  | message index => cases h

theorem isZero_zero (t : FieldType) : t.codec.zero.isZero = true := by
  cases t with
  | scalar type => cases type <;> rfl
  | enum index => rfl
  | message index => rfl

end FieldType

/-! ### Unset fields -/

/-- An unset field holds no list and no message. -/
theorem Field.unset_empty (f : Field) :
    f.unset.toScalars = [] ∧ f.unset.toRecords = [] ∧
      ∀ record, f.unset.toRecord record = record := by
  unfold Field.unset
  cases f.cardinality with
  | optional => exact ⟨rfl, rfl, fun _ => rfl⟩
  | required => exact ⟨rfl, rfl, fun _ => rfl⟩
  | implicit => exact ⟨rfl, rfl, fun _ => rfl⟩
  | repeated => cases f.type.isMessage <;> exact ⟨rfl, rfl, fun _ => rfl⟩

namespace Record

theorem unset_fitsField (s : Schema) {f : Field} (h : f.WellFormed) : FitsField s f f.unset := by
  unfold Field.unset
  cases hcard : f.cardinality with
  | optional => exact .inl hcard
  | required => exact .inr hcard
  | implicit => exact ⟨by rw [hcard]; decide, FieldType.holds_zero (h.presence hcard)⟩
  | repeated =>
    cases htype : f.type.isMessage with
    | true => exact ⟨hcard, htype, trivial⟩
    | false => exact ⟨hcard, htype, by simp⟩

theorem unset_fits (s : Schema) {fields : List Field} (h : ∀ f ∈ fields, f.WellFormed) :
    Fits s fields (fields.map Field.unset) := by
  induction fields with
  | nil => rfl
  | cons f others ih =>
    exact ⟨unset_fitsField s (h f (by simp)), ih fun g hg => h g (List.mem_cons_of_mem f hg)⟩

/-- An unset message is a value of its type. -/
theorem unset_hasType {s : Schema} (hs : s.WellFormed) (type : Nat) :
    HasType s type (s.unsetRecord type) :=
  unset_fits s fun _ hf => hs.field hf

/-! ### Merging into an unset message -/

mutual

theorem combineField_unset (s : Schema) (f : Field) : (value : FieldValue) →
    FitsField s f value → combineField s f f.unset value = normalizeField s f value
  | .absent, h => by
    rw [combineField, normalizeField]
    have hcard : f.cardinality = .optional ∨ f.cardinality = .required := h
    rcases hcard with hcard | hcard <;> rw [Field.unset, hcard]
  | .scalar value, h => by
    have hholds : f.type.Holds value := h.2
    rw [combineField, normalizeField]
    by_cases hcard : f.cardinality = .implicit
    · cases hzero : value.isZero with
      | true =>
        rw [if_pos ⟨hcard, rfl⟩, if_pos hcard, FieldType.unsignedZero_eq_zero hholds hzero,
          Field.unset, hcard]
      | false =>
        rw [if_neg (by simp), if_pos hcard, ScalarValue.unsignedZero_of_ne hzero]
    · rw [if_neg fun hboth => hcard hboth.1, if_neg hcard]
  | .scalars values, _ => by
    rw [combineField, normalizeField, f.unset_empty.1, List.nil_append]
  | .message record, h => by
    rw [combineField, normalizeField, f.unset_empty.2.2,
      combine_unset s (s.fieldsInside f) record h.2.2]
  | .messages records, _ => by
    rw [combineField, normalizeField, f.unset_empty.2.1, List.nil_append]

/-- **Merging a record into an unset message gives it back**, without the signs of zeros that are
not written. -/
theorem combine_unset (s : Schema) (fields : List Field) : (record : List FieldValue) →
    Fits s fields record →
      combine s fields (fields.map Field.unset) record = normalize s fields record
  | [], _ => by rw [combine, normalize]
  | value :: rest, h => by
    cases fields with
    | nil => exact h.elim
    | cons f others =>
      have hboth : FitsField s f value ∧ Fits s others rest := h
      rw [List.map_cons, combine, normalize, combineField_unset s f value hboth.1,
        combine_unset s others rest hboth.2]

end

end Record

end Protobuf

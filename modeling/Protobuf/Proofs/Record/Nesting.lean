import Protobuf.Proofs.Wire.FieldLaws
import Protobuf.Proofs.Record.Values

/-! Messages inside messages are windows.

A message inside another is read without cutting it out of the bytes, and so are the messages and
packed runs inside it, each one seeing everything that follows. Reading is local at every depth
(`mergeNested_local`): one step of a message is local if the messages inside it are, and these have
one level less of the budget. So a message behind its length is read exactly as its bytes alone
would be, field by field until none are left (`mergeNested_window`). -/
namespace Protobuf

theorem Merged.map_eq_ok_iff {σ τ : Type} {f : σ → τ} {m : Merged σ} {state : τ} {rest : Bytes} :
    m.map f = ⟨state, .ok rest⟩ ↔ ∃ inner, m = ⟨inner, .ok rest⟩ ∧ state = f inner := by
  obtain ⟨before, end'⟩ := m
  simp only [Merged.map, Merged.mk.injEq]
  constructor
  · intro h
    exact ⟨before, ⟨rfl, h.2⟩, h.1.symm⟩
  · intro h
    obtain ⟨inner, ⟨hbefore, hend⟩, hstate⟩ := h
    exact ⟨by rw [hstate, hbefore], hend⟩

theorem Local.mapMerged {σ τ : Type} {merge : Bytes → Merged σ} (h : Local (Merged.takes merge))
    (f : σ → τ) : Local (Merged.takes fun bytes => (merge bytes).map f) :=
  (h.map f).congr fun _ _ _ => Merged.map_eq_ok_iff

namespace Record
variable {s : Schema} {nested : Nested}

/-! ### One field -/

theorem mergeMessage_eq_ok_iff {type : Nat} {wireType : WireType} {value result : FieldValue}
    {bytes rest : Bytes} :
    mergeMessage s nested type wireType value bytes = ⟨result, .ok rest⟩ ↔
      wireType = .lengthDelimited ∧ ∃ record,
        nested type (value.toRecord (s.unsetRecord type)) bytes = ⟨record, .ok rest⟩ ∧
          result = .message record := by
  unfold mergeMessage checkWireType
  by_cases htype : WireType.lengthDelimited = wireType
  · simp only [htype, if_true, true_and]
    exact Merged.map_eq_ok_iff
  · simp [htype, Ne.symm htype]

theorem appendMessage_eq_ok_iff {type : Nat} {wireType : WireType} {value result : FieldValue}
    {bytes rest : Bytes} :
    appendMessage s nested type wireType value bytes = ⟨result, .ok rest⟩ ↔
      wireType = .lengthDelimited ∧ ∃ record,
        nested type (s.unsetRecord type) bytes = ⟨record, .ok rest⟩ ∧
          result = .messages (value.toRecords ++ [record]) := by
  unfold appendMessage checkWireType
  by_cases htype : WireType.lengthDelimited = wireType
  · simp only [htype, if_true, true_and]
    cases hn : nested type (s.unsetRecord type) bytes with
    | mk record r =>
      cases r with
      | error e => simp
      | ok left => simp [and_assoc, eq_comm, and_comm]
  · simp [htype, Ne.symm htype]

section
variable (hnested : ∀ type record, Local (Merged.takes (nested type record)))
include hnested

theorem mergeMessage_local (type : Nat) (wireType : WireType) (value : FieldValue) :
    Local (Merged.takes (mergeMessage s nested type wireType value)) :=
  (((hnested type _).map FieldValue.message).guard (wireType = .lengthDelimited)).congr
    fun _ _ _ => mergeMessage_eq_ok_iff

theorem appendMessage_local (type : Nat) (wireType : WireType) (value : FieldValue) :
    Local (Merged.takes (appendMessage s nested type wireType value)) :=
  (((hnested type _).map fun record => FieldValue.messages (value.toRecords ++ [record])).guard
    (wireType = .lengthDelimited)).congr fun _ _ _ => appendMessage_eq_ok_iff

theorem mergeValue_local (f : Field) (wireType : WireType) (value : FieldValue) :
    Local (Merged.takes (mergeValue s nested f wireType value)) := by
  have hcodec := f.type.codec_lawful
  unfold mergeValue
  split
  · rename_i type htype
    by_cases hrep : f.isRepeated = true
    · simp only [hrep, if_true]
      exact appendMessage_local hnested type wireType value
    · simp only [hrep]
      exact mergeMessage_local hnested type wireType value
  · by_cases hrep : f.isRepeated = true
    · simp only [hrep, if_true]
      exact (hcodec.mergeRepeated_local wireType value.toScalars).mapMerged FieldValue.scalars
    · simp only [hrep]
      exact (hcodec.merge_local wireType _).mapMerged FieldValue.scalar

theorem mergeFieldWith_local (budget type : Nat) (record : Record) (number : Nat)
    (wireType : WireType) :
    Local (Merged.takes (mergeFieldWith s nested budget type record number wireType)) := by
  unfold mergeFieldWith
  split
  · refine ((Skip.field_local budget wireType number).map fun _ => record).congr ?_
    intro bytes result rest
    simp [Merged.takes, Skip.takes, eq_comm, and_comm]
  · rename_i index hindex
    split
    · rename_i f value hf hvalue
      exact (mergeValue_local hnested f wireType value).mapMerged fun v => record.set index v
    · refine (Local.nothing record).congr ?_
      intro bytes result rest
      simp [Merged.takes, eq_comm]

end

/-! ### One step, and the messages inside -/

theorem mergeNextWith_eq_ok_iff {budget type : Nat} {record result : Record} {bytes rest : Bytes} :
    mergeNextWith s nested budget type record bytes = ⟨result, .ok rest⟩ ↔
      ∃ field mid, Key.decode bytes = .ok (field, mid) ∧
        mergeFieldWith s nested budget type record field.1 field.2 mid = ⟨result, .ok rest⟩ := by
  unfold mergeNextWith
  cases hkey : Key.decode bytes with
  | error e => simp
  | ok found =>
    obtain ⟨field, mid⟩ := found
    simp only [Except.ok.injEq, Prod.mk.injEq, and_assoc, exists_and_left, exists_eq_left']

/-- A step of a message advances if the messages inside it are local. -/
theorem mergeNextWith_advances (hnested : ∀ type record, Local (Merged.takes (nested type record)))
    (budget type : Nat) : Delimited.Advances (mergeNextWith s nested budget type) where
  isLocal record :=
    (Key.decode_local.bind fun field =>
      mergeFieldWith_local hnested budget type record field.1 field.2).congr
        fun _ _ _ => mergeNextWith_eq_ok_iff
  shortens := by
    intro record result bytes rest h
    obtain ⟨field, mid, hkey, hfield⟩ := mergeNextWith_eq_ok_iff.mp h
    have hkept := (mergeFieldWith_local hnested budget type record field.1 field.2).length_le hfield
    exact Nat.lt_of_le_of_lt hkept (Key.decode_length_lt hkey)

/-- Messages are local at every depth that the budget allows. -/
theorem mergeNested_local (s : Schema) (budget type : Nat) (record : Record) :
    Local (Merged.takes (mergeNested s budget type record)) := by
  induction budget generalizing type record with
  | zero => exact Local.never.congr fun _ _ _ => by simp [Merged.takes, mergeNested]
  | succ budget ih =>
    exact Delimited.mergeDelimited_local (mergeNextWith_advances ih budget type) record

theorem mergeNext_advances (s : Schema) (budget type : Nat) :
    Delimited.Advances (mergeNext s budget type) :=
  mergeNextWith_advances (mergeNested_local s budget) budget type

/-! ### Windows -/

/-- A message behind its length is read as its bytes alone, with one level less of the budget. -/
theorem mergeNested_window {budget type : Nat} {record result : Record} {p window tail rest : Bytes}
    (hp : Varint.decode p = .ok (window.length, [])) :
    mergeNested s budget type record (p ++ window ++ tail) = ⟨result, .ok rest⟩ ↔
      0 < budget ∧ rest = tail ∧
        Delimited.Run (mergeNext s (budget - 1) type) record window result := by
  cases budget with
  | zero => simp [mergeNested]
  | succ budget =>
    rw [Nat.add_sub_cancel]
    have hwindow : mergeNested s (budget + 1) type record (p ++ window ++ tail) =
        ⟨result, .ok rest⟩ ↔ _ :=
      Delimited.mergeDelimited_window (mergeNext_advances s budget type) hp
    simp only [hwindow, Nat.succ_pos, true_and]

/-- **Nothing behind the announced end is seen.** Behind any length that announces them, the bytes
of a message are merged exactly if the budget is not used up and the bytes alone can be read field
by field, with the same result; what follows them is left unread. The same holds of a packed run of
values of any type that can be packed. -/
theorem merge_window_iff (s : Schema) (p window tail : Bytes)
    (hp : Varint.decode p = .ok (window.length, [])) :
    (∀ (budget type : Nat) (wireType : WireType) (value : FieldValue) (result : Record)
        (rest : Bytes),
      mergeMessage s (mergeNested s budget) type wireType value (p ++ window ++ tail) =
          ⟨.message result, .ok rest⟩ ↔
        wireType = .lengthDelimited ∧ 0 < budget ∧ rest = tail ∧
          Delimited.Run (mergeNext s (budget - 1) type) (value.toRecord (s.unsetRecord type))
            window result) ∧
    ∀ t : FieldType, t.codec.isPackable = true →
      ∀ (values result : List ScalarValue) (rest : Bytes),
        t.codec.mergeRepeated .lengthDelimited values (p ++ window ++ tail) = ⟨result, .ok rest⟩ ↔
          rest = tail ∧ Delimited.Run t.codec.append values window result := by
  constructor
  · intro budget type wireType value result rest
    rw [mergeMessage_eq_ok_iff]
    simp only [mergeNested_window hp, FieldValue.message.injEq, and_assoc, exists_and_left,
      exists_eq_right']
  · intro t hpack values result rest
    rw [Codec.Lawful.mergeRepeated_packed hpack]
    exact Delimited.mergeDelimited_window t.codec_lawful.append_advances hp

/-- The length of two bytes may be written with two, and what follows them is no field at all. -/
theorem merge_window_iff_mark :
    Varint.decode [0x82, 0x00] = .ok (2, []) ∧
      mergeMessage Tree.schema (mergeNested Tree.schema 1) 0 .lengthDelimited .absent
          ([0x82, 0x00] ++ [0x08, 0x07] ++ [0xff]) =
        ⟨.message [.scalar (.i32 7)], .ok [0xff]⟩ ∧
      (FieldType.scalar .uint32).codec.mergeRepeated .lengthDelimited [.u32 1]
          ([0x82, 0x00] ++ [0x08, 0x07] ++ [0xff]) =
        ⟨[.u32 1, .u32 8, .u32 7], .ok [0xff]⟩ := by
  have hp : Varint.decode [0x82, 0x00] = .ok (([0x08, 0x07] : Bytes).length, []) := by rfl
  obtain ⟨hmessage, hpacked⟩ :=
    merge_window_iff Tree.schema [0x82, 0x00] [0x08, 0x07] [0xff] hp
  refine ⟨hp, (hmessage 1 0 .lengthDelimited .absent _ _).mpr ⟨rfl, by decide, rfl, ?_⟩,
    (hpacked (.scalar .uint32) rfl _ _ _).mpr ⟨rfl, ?_⟩⟩
  · exact .single (by decide) rfl
  · exact .next (by decide) rfl (.single (by decide) rfl)

end Record

end Protobuf

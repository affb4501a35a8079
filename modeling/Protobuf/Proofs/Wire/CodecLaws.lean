import Protobuf.Proofs.Wire.ReadBack
import Protobuf.Proofs.Wire.Window
import Protobuf.Scalar

/-! What every codec owes.

A codec is four functions that have to fit together. `Codec.Lawful` says how: a payload is read back
as the value it was written from, its length is the one found without writing it, reading is local,
and reading takes at least one byte. Lengths are words of 64 bits, so the first two are asked of
values whose payload is shorter than that. The codec of every scalar type is lawful
(`Scalar.codec_lawful`). -/
namespace Protobuf

namespace Codec

structure Lawful (c : Codec α) (valid : α → Prop) : Prop where
  read_write : ∀ {value : α}, valid value → c.size value < 2 ^ 64 → ∀ rest : Bytes,
    c.read (c.write value ++ rest) = .ok (value, rest)
  length_write : ∀ {value : α}, c.size value < 2 ^ 64 → (c.write value).length = c.size value
  isLocal : Local (Reader.takes c.read)
  shortens : ∀ {bytes rest : Bytes} {value : α}, c.read bytes = .ok (value, rest) →
    rest.length < bytes.length

namespace Lawful
variable {α β : Type} {c : Codec α} {valid : α → Prop}

theorem mono (h : c.Lawful valid) {stricter : α → Prop}
    (hs : ∀ {value}, stricter value → valid value) :
    c.Lawful stricter :=
  ⟨fun hv => h.read_write (hs hv), h.length_write, h.isLocal, h.shortens⟩

theorem lift_read_eq_ok_iff {inject : α → β} {project : β → α} {bytes rest : Bytes} {value : β} :
    (c.lift inject project).read bytes = .ok (value, rest) ↔
      ∃ a, c.read bytes = .ok (a, rest) ∧ value = inject a := by
  simp only [Codec.lift]
  constructor
  · intro h
    split at h
    · cases h
    · rename_i a left hread
      cases h
      exact ⟨a, hread, rfl⟩
  · rintro ⟨a, hread, rfl⟩
    rw [hread]

/-- A codec for a larger type, of whose values only those that stand for values of the smaller one
are read back. -/
theorem lift (h : c.Lawful valid) {inject : α → β} {project : β → α} {holds : β → Prop}
    (hholds : ∀ value, holds value → value = inject (project value) ∧ valid (project value)) :
    (c.lift inject project).Lawful holds where
  read_write := by
    intro value hv hsize rest
    obtain ⟨hvalue, hvalid⟩ := hholds value hv
    exact lift_read_eq_ok_iff.mpr ⟨project value, h.read_write hvalid hsize rest, hvalue⟩
  length_write := fun hsize => h.length_write hsize
  isLocal := (h.isLocal.map inject).congr fun _ _ _ => lift_read_eq_ok_iff
  shortens := by
    intro bytes rest value hread
    obtain ⟨a, ha, _⟩ := lift_read_eq_ok_iff.mp hread
    exact h.shortens ha

end Lawful

/-! ### Varints -/

theorem ofWord_read_eq_ok_iff {toWord : α → Nat} {ofWord : Nat → α} {zero : α}
    {bytes rest : Bytes} {value : α} :
    (Codec.ofWord toWord ofWord zero).read bytes = .ok (value, rest) ↔
      ∃ word, Varint.decode bytes = .ok (word, rest) ∧ value = ofWord word := by
  simp only [Codec.ofWord]
  constructor
  · intro h
    split at h
    · cases h
    · rename_i word left hword
      cases h
      exact ⟨word, hword, rfl⟩
  · rintro ⟨word, hword, rfl⟩
    rw [hword]

theorem ofWord_lawful {toWord : α → Nat} {ofWord : Nat → α} {zero : α}
    (hlt : ∀ value, toWord value < 2 ^ 64) (hback : ∀ value, ofWord (toWord value) = value) :
    (Codec.ofWord toWord ofWord zero).Lawful fun _ => True where
  read_write := by
    intro value _ _ rest
    exact ofWord_read_eq_ok_iff.mpr
      ⟨toWord value, Varint.decode_encode (hlt value) rest, (hback value).symm⟩
  length_write := fun {value} _ => Varint.length_encode (hlt value)
  isLocal := (Varint.decode_local.map ofWord).congr fun _ _ _ => ofWord_read_eq_ok_iff
  shortens := by
    intro bytes rest value hread
    obtain ⟨word, hword, _⟩ := ofWord_read_eq_ok_iff.mp hread
    exact Varint.decode_length_lt hword

theorem signedWord_lt (n : Int) : signedWord n < 2 ^ 64 := by
  unfold signedWord
  omega

theorem bool_lawful : bool.Lawful fun _ => True :=
  ofWord_lawful (fun value => by cases value <;> decide) (fun value => by cases value <;> rfl)

theorem int32_lawful : int32.Lawful fun _ => True := by
  refine ofWord_lawful (fun _ => signedWord_lt _) fun value => ?_
  apply Int32.toInt_inj.mp
  have hhigh := value.toInt_lt
  have hlow := value.le_toInt
  rw [Int32.toInt_ofNat', signedWord, Int.toNat_of_nonneg (by omega), Int.bmod_def]
  simp only [Int32.size]
  omega

theorem int64_lawful : int64.Lawful fun _ => True := by
  refine ofWord_lawful (fun _ => signedWord_lt _) fun value => ?_
  apply Int64.toInt_inj.mp
  have hhigh := value.toInt_lt
  have hlow := value.le_toInt
  rw [Int64.toInt_ofNat', signedWord, Int.toNat_of_nonneg (by omega), Int.bmod_def]
  simp only [Int64.size]
  omega

theorem uint32_lawful : uint32.Lawful fun _ => True :=
  ofWord_lawful (fun value => Nat.lt_trans value.toNat_lt (by decide)) fun _ => UInt32.ofNat_toNat

theorem uint64_lawful : uint64.Lawful fun _ => True :=
  ofWord_lawful (fun value => value.toNat_lt) fun _ => UInt64.ofNat_toNat

theorem zigzag_lt {n : Int} (bound : Nat) (hlow : -bound ≤ n) (hhigh : n < bound) :
    Zigzag.encode n < 2 * bound := by
  unfold Zigzag.encode
  split <;> omega

theorem sint32_lawful : sint32.Lawful fun _ => True := by
  have hlt (value : Int32) : Zigzag.encode value.toInt < 0x100000000 :=
    zigzag_lt 0x80000000 value.le_toInt value.toInt_lt
  refine ofWord_lawful (fun value => Nat.lt_trans (hlt value) (by decide)) fun value => ?_
  rw [Nat.mod_eq_of_lt (hlt value), Zigzag.decode_encode, Int32.ofInt_toInt]

theorem sint64_lawful : sint64.Lawful fun _ => True := by
  refine ofWord_lawful (fun value => zigzag_lt (2 ^ 63) value.le_toInt value.toInt_lt) ?_
  intro value
  rw [Zigzag.decode_encode, Int64.ofInt_toInt]

/-! ### Fixed widths -/

theorem length_littleEndian (width n : Nat) : (littleEndian width n).length = width := by
  induction width generalizing n with
  | zero => rfl
  | succ width ih => rw [littleEndian, List.length_cons, ih]

theorem ofLittleEndian_littleEndian (width n : Nat) (h : n < 256 ^ width) :
    ofLittleEndian (littleEndian width n) = n := by
  induction width generalizing n with
  | zero =>
    rw [Nat.pow_zero] at h
    rw [littleEndian, ofLittleEndian]
    omega
  | succ width ih =>
    have hquotient : n / 256 < 256 ^ width := by
      rw [Nat.div_lt_iff_lt_mul (by decide), ← Nat.pow_succ]
      exact h
    rw [littleEndian, ofLittleEndian, ih (n / 256) hquotient, UInt8.toNat_ofNat']
    omega

theorem ofFixed_read_eq_ok_iff {wireType : WireType} {width : Nat} {toWord : α → Nat}
    {ofWord : Nat → α} {zero : α} {bytes rest : Bytes} {value : α} :
    (Codec.ofFixed wireType width toWord ofWord zero).read bytes = .ok (value, rest) ↔
      ∃ word : Bytes, (word.length = width ∧ bytes = word ++ rest) ∧
        value = ofWord (ofLittleEndian word) := by
  simp only [Codec.ofFixed]
  constructor
  · intro h
    split at h
    · cases h
    · cases h
      exact ⟨bytes.take width, ⟨List.length_take_of_le (by omega),
        (List.take_append_drop width bytes).symm⟩, rfl⟩
  · rintro ⟨word, ⟨rfl, rfl⟩, rfl⟩
    have hge : ¬ (word ++ rest).length < word.length := by
      rw [List.length_append]
      omega
    rw [if_neg hge, List.take_left, List.drop_left]

theorem ofFixed_lawful {wireType : WireType} {width : Nat} {toWord : α → Nat} {ofWord : Nat → α}
    {zero : α} (hwidth : 0 < width) (hlt : ∀ value, toWord value < 256 ^ width)
    (hback : ∀ value, ofWord (toWord value) = value) :
    (Codec.ofFixed wireType width toWord ofWord zero).Lawful fun _ => True where
  read_write := by
    intro value _ _ rest
    refine ofFixed_read_eq_ok_iff.mpr
      ⟨littleEndian width (toWord value), ⟨length_littleEndian width _, rfl⟩, ?_⟩
    rw [ofLittleEndian_littleEndian width _ (hlt value), hback]
  length_write := fun _ => length_littleEndian width _
  isLocal := ((Local.chunk width).map fun word => ofWord (ofLittleEndian word)).congr
    fun _ _ _ => ofFixed_read_eq_ok_iff
  shortens := by
    intro bytes rest value hread
    obtain ⟨word, ⟨hlen, rfl⟩, _⟩ := ofFixed_read_eq_ok_iff.mp hread
    rw [List.length_append]
    omega

theorem fixed32_lawful : fixed32.Lawful fun _ => True :=
  ofFixed_lawful (by decide) (fun value => value.toNat_lt) fun _ => UInt32.ofNat_toNat

theorem fixed64_lawful : fixed64.Lawful fun _ => True :=
  ofFixed_lawful (by decide) (fun value => value.toNat_lt) fun _ => UInt64.ofNat_toNat

theorem sfixed32_lawful : sfixed32.Lawful fun _ => True := by
  refine ofFixed_lawful (by decide) (fun value => value.toUInt32.toNat_lt) fun value => ?_
  apply Int32.toBitVec.inj
  rw [Int32.toBitVec_ofNat', ← Int32.toNat_toBitVec, BitVec.ofNat_toNat, BitVec.setWidth_eq]

theorem sfixed64_lawful : sfixed64.Lawful fun _ => True := by
  refine ofFixed_lawful (by decide) (fun value => value.toUInt64.toNat_lt) fun value => ?_
  apply Int64.toBitVec.inj
  rw [Int64.toBitVec_ofNat', ← Int64.toNat_toBitVec, BitVec.ofNat_toNat, BitVec.setWidth_eq]

/-! ### Announced lengths -/

theorem readBytes_write {payload : Bytes} (h : payload.length < 2 ^ 64) (rest : Bytes) :
    Delimited.readBytes (Varint.encode payload.length ++ payload ++ rest) =
      .ok (payload, rest) := by
  rw [List.append_assoc]
  exact Delimited.readBytes_eq_ok_iff.mpr
    ⟨payload.length, payload ++ rest, Varint.decode_encode h _, rfl, rfl⟩

theorem readBytes_shortens {bytes payload rest : Bytes}
    (h : Delimited.readBytes bytes = .ok (payload, rest)) : rest.length < bytes.length := by
  obtain ⟨len, mid, hlen, _, rfl⟩ := Delimited.readBytes_eq_ok_iff.mp h
  have := Varint.decode_length_lt hlen
  rw [List.length_append] at this
  omega

theorem bytes_lawful : bytes.Lawful fun _ => True where
  read_write := by
    intro value _ hsize rest
    have hlen : value.length < 2 ^ 64 := Nat.lt_of_le_of_lt (Nat.le_add_left _ _) hsize
    exact readBytes_write hlen rest
  length_write := by
    intro value hsize
    have hlen : value.length < 2 ^ 64 := Nat.lt_of_le_of_lt (Nat.le_add_left _ _) hsize
    simp only [bytes, List.length_append, Varint.length_encode hlen]
  isLocal := Delimited.readBytes_local
  shortens := readBytes_shortens

theorem decode?_encode (text : String) : Utf8.decode? (Utf8.encode text) = some text := by
  have hbytes : (⟨text.toByteArray.data.toList.toArray⟩ : ByteArray) = text.toByteArray := by simp
  rw [Utf8.decode?, Utf8.encode, hbytes, String.fromUTF8?, dif_pos text.isValidUTF8]
  rfl

theorem string_read_eq_ok_iff {bytes rest : Bytes} {text : String} :
    string.read bytes = .ok (text, rest) ↔
      ∃ payload, Delimited.readBytes bytes = .ok (payload, rest) ∧
        Utf8.decode? payload = some text := by
  simp only [string]
  constructor
  · intro h
    split at h
    · cases h
    · rename_i payload left hpayload
      split at h
      · rename_i found hfound
        cases h
        exact ⟨payload, hpayload, hfound⟩
      · cases h
  · rintro ⟨payload, hpayload, htext⟩
    rw [hpayload]
    simp only [htext]

theorem string_lawful : string.Lawful fun _ => True where
  read_write := by
    intro value _ hsize rest
    have hlen : (Utf8.encode value).length < 2 ^ 64 :=
      Nat.lt_of_le_of_lt (Nat.le_add_left _ _) hsize
    exact string_read_eq_ok_iff.mpr
      ⟨Utf8.encode value, readBytes_write hlen rest, decode?_encode value⟩
  length_write := by
    intro value hsize
    have hlen : (Utf8.encode value).length < 2 ^ 64 :=
      Nat.lt_of_le_of_lt (Nat.le_add_left _ _) hsize
    simp only [string, List.length_append, Varint.length_encode hlen]
  isLocal := by
    intro bytes text rest h
    obtain ⟨payload, hpayload, htext⟩ := string_read_eq_ok_iff.mp h
    obtain ⟨used, hsplit, hused⟩ := Delimited.readBytes_local hpayload
    exact ⟨used, hsplit, fun tail => string_read_eq_ok_iff.mpr ⟨payload, hused tail, htext⟩⟩
  shortens := by
    intro bytes rest text h
    obtain ⟨payload, hpayload, _⟩ := string_read_eq_ok_iff.mp h
    exact readBytes_shortens hpayload

end Codec

/-! ### Scalar types -/

/-- **The codec of every scalar type is lawful** on the values of the type. -/
theorem Scalar.codec_lawful (s : Scalar) : s.codec.Lawful s.Holds := by
  cases s with
  | double => exact Codec.fixed64_lawful.lift fun | .f64 _, _ => ⟨rfl, trivial⟩
  | float => exact Codec.fixed32_lawful.lift fun | .f32 _, _ => ⟨rfl, trivial⟩
  | int32 => exact Codec.int32_lawful.lift fun | .i32 _, _ => ⟨rfl, trivial⟩
  | int64 => exact Codec.int64_lawful.lift fun | .i64 _, _ => ⟨rfl, trivial⟩
  | uint32 => exact Codec.uint32_lawful.lift fun | .u32 _, _ => ⟨rfl, trivial⟩
  | uint64 => exact Codec.uint64_lawful.lift fun | .u64 _, _ => ⟨rfl, trivial⟩
  | sint32 => exact Codec.sint32_lawful.lift fun | .i32 _, _ => ⟨rfl, trivial⟩
  | sint64 => exact Codec.sint64_lawful.lift fun | .i64 _, _ => ⟨rfl, trivial⟩
  | fixed32 => exact Codec.fixed32_lawful.lift fun | .u32 _, _ => ⟨rfl, trivial⟩
  | fixed64 => exact Codec.fixed64_lawful.lift fun | .u64 _, _ => ⟨rfl, trivial⟩
  | sfixed32 => exact Codec.sfixed32_lawful.lift fun | .i32 _, _ => ⟨rfl, trivial⟩
  | sfixed64 => exact Codec.sfixed64_lawful.lift fun | .i64 _, _ => ⟨rfl, trivial⟩
  | bool => exact Codec.bool_lawful.lift fun | .bool _, _ => ⟨rfl, trivial⟩
  | string => exact Codec.string_lawful.lift fun | .string _, _ => ⟨rfl, trivial⟩
  | bytes => exact Codec.bytes_lawful.lift fun | .bytes _, _ => ⟨rfl, trivial⟩

end Protobuf

import Mathlib.Data.Nat.Digits.Lemmas
import Protobuf.Proofs.Wire.Locality
import Protobuf.Proofs.Wire.ReadBack

/-! Which bytes are varints and keys.

A number has more than one varint, as groups of zeros may follow its digits. What can be read is a
form (`Varint.IsForm`): bytes with the high bit set and one byte without it, ten at most, where a
tenth byte has one bit left. A form stands for the sum of its groups. Reading accepts the forms and
nothing else, bytes that end too early are told from bytes that are no form, and writing gives the
shortest of the forms of a number (`Varint.coding_exact`). Keys are the varints of their two parts
(`Key.keys_exact`). -/
namespace Protobuf

namespace Varint

/-! ### Forms -/

/-- Bytes that continue a varint and a byte that ends it. -/
structure IsForm (front : Bytes) (last : UInt8) : Prop where
  continued : ∀ b ∈ front, 128 ≤ b
  ended : last < 128
  length_le : front.length ≤ 9
  /-- Nine groups leave one bit of a word to the tenth. -/
  tenth : front.length = 9 → last ≤ 1

/-- The number that groups of seven bits stand for, the least significant first. -/
def value (groups : Bytes) : Nat :=
  (groups.mapIdx fun i b => b.toNat % 128 * 128 ^ i).sum

theorem value_eq_ofDigits (groups : Bytes) :
    value groups = Nat.ofDigits 128 (groups.map (·.toNat % 128)) := by
  rw [Nat.ofDigits_eq_sum_mapIdx, value]
  congr 1
  exact List.ext_getElem? fun i => by simp [Function.comp_def]

theorem value_cons (b : UInt8) (groups : Bytes) :
    value (b :: groups) = b.toNat % 128 + 128 * value groups := by
  rw [value_eq_ofDigits, value_eq_ofDigits, List.map_cons, Nat.ofDigits_cons]

theorem value_singleton {b : UInt8} (h : b < 128) : value [b] = b.toNat := by
  have hb : b.toNat < 128 := UInt8.lt_iff_toNat_lt.mp h
  simp [value, Nat.mod_eq_of_lt hb]

theorem value_concat (front : Bytes) (last : UInt8) :
    value (front ++ [last]) = value front + 128 ^ front.length * (last.toNat % 128) := by
  rw [value_eq_ofDigits, value_eq_ofDigits, List.map_append, Nat.ofDigits_append, List.length_map]
  simp

theorem value_lt (groups : Bytes) : value groups < 128 ^ groups.length := by
  rw [value_eq_ofDigits, ← List.length_map (·.toNat % 128)]
  refine Nat.ofDigits_lt_base_pow_length (by decide) fun digit hdigit => ?_
  obtain ⟨b, -, rfl⟩ := List.mem_map.mp hdigit
  exact Nat.mod_lt _ (by decide)

/-- Ten groups fit in a word exactly if the tenth has no bit but its lowest. -/
theorem value_lt_word_iff {front : Bytes} {last : UInt8} (hlast : last < 128)
    (hlength : front.length ≤ 9) :
    value (front ++ [last]) < 2 ^ 64 ↔ (front.length = 9 → last ≤ 1) := by
  by_cases hnine : front.length = 9
  · have hvalue := value_concat front last
    have hfront := value_lt front
    have hdigit : last.toNat < 128 := UInt8.lt_iff_toNat_lt.mp hlast
    rw [Nat.mod_eq_of_lt hdigit, hnine] at hvalue
    rw [hnine] at hfront
    rw [UInt8.le_iff_toNat_le, forall_prop_of_true hnine]
    show _ ↔ last.toNat ≤ 1
    omega
  · refine iff_of_true ?_ fun h => absurd h hnine
    have hpow : 128 ^ (front ++ [last]).length ≤ 128 ^ 9 := by
      refine Nat.pow_le_pow_right (by decide) ?_
      rw [List.length_append, List.length_singleton]
      omega
    exact Nat.lt_of_lt_of_le (value_lt _) (Nat.le_trans hpow (by decide))

/-! ### What is read -/

theorem decodeUpTo_more {b : UInt8} (h : 128 ≤ b) (room : Nat) (rest : Bytes) :
    decodeUpTo (room + 1) (b :: rest) =
      (decodeUpTo room rest).map fun (n, rest') => (b.toNat % 128 + 128 * n, rest') := by
  rw [decodeUpTo, if_neg (UInt8.not_lt.mpr h)]
  cases decodeUpTo room rest <;> rfl

/-- Reading goes over the bytes that continue a varint to the one that ends it. -/
theorem decodeUpTo_form {room : Nat} {front : Bytes} {last : UInt8}
    (hfront : ∀ b ∈ front, 128 ≤ b) (hlast : last < 128) (hroom : front.length < room)
    (rest : Bytes) :
    decodeUpTo room (front ++ last :: rest) = .ok (value (front ++ [last]), rest) := by
  induction room generalizing front with
  | zero => exact absurd hroom (Nat.not_lt_zero _)
  | succ room ih =>
    cases front with
    | nil => rw [List.nil_append, List.nil_append, decodeUpTo, if_pos hlast, value_singleton hlast]
    | cons b front =>
      obtain ⟨hb, hfront⟩ := List.forall_mem_cons.mp hfront
      rw [List.cons_append, decodeUpTo_more hb, ih hfront (Nat.lt_of_succ_lt_succ hroom),
        List.cons_append, value_cons]
      rfl

/-- Bytes that all continue a varint are not enough, be it for the varint or for the reader. -/
theorem decodeUpTo_continued {room : Nat} {bytes : Bytes} (h : ∀ b ∈ bytes.take room, 128 ≤ b) :
    decodeUpTo room bytes =
      .error (if bytes.length < room then .bufferUnderflow else .invalidVarint) := by
  induction room generalizing bytes with
  | zero => rfl
  | succ room ih =>
    cases bytes with
    | nil => rfl
    | cons b rest =>
      obtain ⟨hb, hrest⟩ := List.forall_mem_cons.mp h
      rw [decodeUpTo_more hb, ih hrest]
      simp [Except.map]

/-- Bytes continue a varint as far as they are looked at, or a byte ends it before. -/
theorem continued_or_ended (room : Nat) (bytes : Bytes) :
    (∀ b ∈ bytes.take room, 128 ≤ b) ∨
      ∃ front last rest, bytes = front ++ last :: rest ∧ (∀ b ∈ front, 128 ≤ b) ∧ last < 128 ∧
        front.length < room := by
  induction room generalizing bytes with
  | zero => exact .inl (by simp)
  | succ room ih =>
    cases bytes with
    | nil => exact .inl (by simp)
    | cons b bytes =>
      rcases UInt8.lt_or_le b 128 with hb | hb
      · exact .inr ⟨[], b, bytes, rfl, by simp, hb, Nat.zero_lt_succ room⟩
      rcases ih bytes with hall | ⟨front, last, rest, rfl, hfront, hlast, hlength⟩
      · exact .inl (List.forall_mem_cons.mpr ⟨hb, hall⟩)
      · exact .inr ⟨b :: front, last, rest, rfl, List.forall_mem_cons.mpr ⟨hb, hfront⟩, hlast,
          Nat.succ_lt_succ hlength⟩

/-- **A form is read as its number**, whatever follows. -/
theorem decode_form {front : Bytes} {last : UInt8} (h : IsForm front last) (rest : Bytes) :
    decode (front ++ last :: rest) = .ok (value (front ++ [last]), rest) := by
  refine decode_eq_ok_iff.mpr ⟨?_, (value_lt_word_iff h.ended h.length_le).mpr h.tenth⟩
  exact decodeUpTo_form h.continued h.ended (Nat.lt_succ_of_le h.length_le) rest

example : decode [0x85, 0x80, 0x00, 0x2A] = .ok (5, [0x2A]) := by decide

/-- The three ways in which reading can end. -/
theorem decode_cases (bytes : Bytes) :
    (∃ front last rest, bytes = front ++ last :: rest ∧ IsForm front last) ∨
    (bytes.length < 10 ∧ (∀ b ∈ bytes, 128 ≤ b) ∧ decode bytes = .error .bufferUnderflow) ∨
    (¬ (bytes.length < 10 ∧ ∀ b ∈ bytes, 128 ≤ b) ∧ decode bytes = .error .invalidVarint) := by
  rcases continued_or_ended 10 bytes with hall | ⟨front, last, rest, rfl, hfront, hlast, hlength⟩
  · right
    have hread := decodeUpTo_continued hall
    by_cases hshort : bytes.length < 10
    · rw [if_pos hshort] at hread
      rw [List.take_of_length_le (Nat.le_of_lt hshort)] at hall
      exact .inl ⟨hshort, hall, by rw [decode, hread]⟩
    · rw [if_neg hshort] at hread
      exact .inr ⟨fun h => hshort h.1, by rw [decode, hread]⟩
  · by_cases htenth : front.length = 9 → last ≤ 1
    · exact .inl ⟨front, last, rest, rfl, hfront, hlast, Nat.le_of_lt_succ hlength, htenth⟩
    · refine .inr (.inr ⟨fun h => ?_, ?_⟩)
      · exact absurd hlast (UInt8.not_lt.mpr (h.2 last (by simp)))
      · have hlarge := mt (value_lt_word_iff hlast (Nat.le_of_lt_succ hlength)).mp htenth
        rw [decode, decodeUpTo_form hfront hlast hlength]
        exact if_neg hlarge

theorem decode_eq_ok_iff_form {bytes rest : Bytes} {n : Nat} :
    decode bytes = .ok (n, rest) ↔ ∃ front last, bytes = front ++ last :: rest ∧
      IsForm front last ∧ n = value (front ++ [last]) := by
  constructor
  · intro h
    rcases decode_cases bytes with ⟨front, last, rest', rfl, hform⟩ | ⟨-, -, herror⟩ | ⟨-, herror⟩
    · rw [decode_form hform] at h
      cases h
      exact ⟨front, last, rfl, hform, rfl⟩
    · rw [herror] at h
      cases h
    · rw [herror] at h
      cases h
  · rintro ⟨front, last, rfl, hform, rfl⟩
    exact decode_form hform rest

/-! ### What is written -/

/-- Writing takes no more groups than the number needs. -/
theorem length_encode_le {n count : Nat} (h : n < 128 ^ (count + 1)) :
    (encode n).length ≤ count + 1 := by
  induction count generalizing n with
  | zero => rw [encode_small h, List.length_singleton]
  | succ count ih =>
    by_cases hsmall : n < 128
    · rw [encode_small hsmall, List.length_singleton]
      omega
    · have hquotient : n / 128 < 128 ^ (count + 1) := by
        rw [Nat.div_lt_iff_lt_mul (by decide), ← Nat.pow_succ]
        exact h
      rw [encode_large (Nat.not_lt.mp hsmall), List.length_cons]
      exact Nat.succ_le_succ (ih hquotient)

theorem decode_underflow_iff {bytes : Bytes} :
    decode bytes = .error .bufferUnderflow ↔ bytes.length < 10 ∧ ∀ b ∈ bytes, 128 ≤ b := by
  rcases decode_cases bytes with ⟨front, last, rest, rfl, hform⟩ | ⟨hshort, hall, herror⟩ |
    ⟨hno, herror⟩
  · rw [decode_form hform]
    refine iff_of_false (by simp) fun h => ?_
    exact absurd hform.ended (UInt8.not_lt.mpr (h.2 last (by simp)))
  · exact iff_of_true herror ⟨hshort, hall⟩
  · rw [herror]
    exact iff_of_false (by simp) hno

theorem decode_invalid_iff {bytes : Bytes} :
    decode bytes = .error .invalidVarint ↔
      (¬ ∃ front last rest, bytes = front ++ last :: rest ∧ IsForm front last) ∧
        ¬ (bytes.length < 10 ∧ ∀ b ∈ bytes, 128 ≤ b) := by
  rw [← decode_underflow_iff]
  constructor
  · intro herror
    refine ⟨?_, by simp [herror]⟩
    rintro ⟨front, last, rest, rfl, hform⟩
    rw [decode_form hform] at herror
    cases herror
  · rintro ⟨hform, hunderflow⟩
    rcases decode_cases bytes with hexists | ⟨-, -, herror⟩ | ⟨-, herror⟩
    · exact absurd hexists hform
    · exact absurd herror hunderflow
    · exact herror

/-- **Varints are coded exactly.** A word is written in as many bytes as is said beforehand, ten at
most, and read back. What is read is a form, and its number is the sum of the groups. That number
fits in a word, and it has no form shorter than the one that is written. Less than ten bytes that
all continue a varint are too few, and all else is invalid. -/
theorem coding_exact (word : UInt64) (bytes rest : Bytes) (n : Nat) :
    ((encode word.toNat).length = encodedLen word.toNat ∧ encodedLen word.toNat ≤ 10 ∧
      decode (encode word.toNat ++ rest) = .ok (word.toNat, rest)) ∧
    (decode bytes = .ok (n, rest) ↔ ∃ front last, bytes = front ++ last :: rest ∧
      IsForm front last ∧ n = value (front ++ [last])) ∧
    (decode bytes = .ok (n, rest) →
      n < 2 ^ 64 ∧ (encode n).length + rest.length ≤ bytes.length) ∧
    (decode bytes = .error .bufferUnderflow ↔ bytes.length < 10 ∧ ∀ b ∈ bytes, 128 ≤ b) ∧
    (decode bytes = .error .invalidVarint ↔
      (¬ ∃ front last rest, bytes = front ++ last :: rest ∧ IsForm front last) ∧
        ¬ (bytes.length < 10 ∧ ∀ b ∈ bytes, 128 ≤ b)) := by
  have hword := word.toNat_lt
  have hten : (encode word.toNat).length ≤ 9 + 1 := length_encode_le (by omega)
  refine ⟨⟨length_encode hword, length_encode hword ▸ hten, decode_encode hword rest⟩,
    decode_eq_ok_iff_form, fun h => ⟨(decode_eq_ok_iff.mp h).2, ?_⟩, decode_underflow_iff,
    decode_invalid_iff⟩
  obtain ⟨front, last, rfl, -, rfl⟩ := decode_eq_ok_iff_form.mp h
  have hbound := value_lt (front ++ [last])
  rw [List.length_append, List.length_singleton] at hbound
  have hshort := length_encode_le hbound
  rw [List.length_append, List.length_cons]
  omega

end Varint

/-! ### Keys -/

theorem WireType.toNat_of_ofNat? {n : Nat} {w : WireType} (h : ofNat? n = some w) :
    w.toNat = n := by
  unfold ofNat? at h
  split at h <;> cases h <;> rfl

namespace Key

theorem value_eq {number : Nat} (h : number ≤ maxNumber) (w : WireType) :
    value number w = 8 * number + w.toNat := by
  unfold maxNumber at h
  unfold value
  omega

/-- The two parts of a key's value. -/
theorem ofValue_eq_ok_iff {key number : Nat} {w : WireType} :
    ofValue key = .ok (number, w) ↔
      key = 8 * number + w.toNat ∧ 1 ≤ number ∧ number ≤ maxNumber := by
  constructor
  · intro h
    unfold ofValue at h
    split at h
    · cases h
    split at h
    · cases h
    split at h
    · cases h
    · rename_i hbound _ w' hw hpos
      cases h
      have htype := WireType.toNat_of_ofNat? hw
      unfold maxNumber
      omega
  · rintro ⟨rfl, hlow, hhigh⟩
    rw [← value_eq hhigh]
    exact ofValue_value hlow hhigh w

/-- The values that are not taken apart. -/
theorem exists_ofValue_error_iff {key : Nat} :
    (∃ e, ofValue key = .error e) ↔
      0xFFFFFFFF < key ∨ key % 8 = 6 ∨ key % 8 = 7 ∨ key / 8 = 0 := by
  cases hkey : ofValue key with
  | error e =>
    refine iff_of_true ⟨e, rfl⟩ ?_
    by_contra hsound
    have htypes : ∀ n < 6, (WireType.ofNat? n).isSome = true := by decide
    obtain ⟨w, hw⟩ := Option.isSome_iff_exists.mp (htypes (key % 8) (by omega))
    have hparts : ofValue key = .ok (key / 8, w) := by
      rw [ofValue_eq_ok_iff, WireType.toNat_of_ofNat? hw, maxNumber]
      omega
    rw [hkey] at hparts
    cases hparts
  | ok field =>
    obtain ⟨hvalue, hlow, hhigh⟩ := ofValue_eq_ok_iff.mp hkey
    have htype : field.2.toNat < 6 := by cases field.2 <;> decide
    unfold maxNumber at hhigh
    refine iff_of_false (by simp) ?_
    omega

/-- **Keys are coded exactly.** The key of a field is as long as is said beforehand, whatever its
wire type, and it is read back. A key is read exactly if there is a varint of eight times a field
number and a wire type. Another varint is refused: it has more than 32 bits, a wire type that does
not exist, or field number zero. -/
theorem keys_exact (number key : Nat) (w : WireType) (bytes rest : Bytes) :
    (1 ≤ number ∧ number ≤ maxNumber → (encode number w).length = encodedLen number ∧
      decode (encode number w ++ rest) = .ok ((number, w), rest)) ∧
    (decode bytes = .ok ((number, w), rest) ↔
      Varint.decode bytes = .ok (8 * number + w.toNat, rest) ∧ 1 ≤ number ∧
        number ≤ maxNumber) ∧
    (Varint.decode bytes = .ok (key, rest) → ((∃ e, decode bytes = .error e) ↔
      0xFFFFFFFF < key ∨ key % 8 = 6 ∨ key % 8 = 7 ∨ key / 8 = 0)) := by
  refine ⟨fun h => ⟨length_encode number w, decode_encode h.1 h.2 w rest⟩, ?_, fun h => ?_⟩
  · simp only [decode_eq_ok_iff, ofValue_eq_ok_iff]
    constructor
    · rintro ⟨_, hkey, rfl, hnumber⟩
      exact ⟨hkey, hnumber⟩
    · rintro ⟨hkey, hnumber⟩
      exact ⟨_, hkey, rfl, hnumber⟩
  · rw [← exists_ofValue_error_iff, decode, h]
    cases hkey : ofValue key <;> simp [hkey]

end Key

end Protobuf

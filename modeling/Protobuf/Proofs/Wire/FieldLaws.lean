import Protobuf.Proofs.Wire.CodecLaws

/-! Fields and runs of values, for every lawful codec.

A field is a key and a payload, a repeated field is one such field for each value or one packed run
of all values. Their lengths are those found without writing them, merging them is local, and
merging what was written gives the values back. -/
namespace Protobuf.Codec.Lawful
variable {α : Type} {c : Codec α} {valid : α → Prop}

/-! ### Merging -/

theorem write_ne_nil (h : c.Lawful valid) {value : α} (hv : valid value)
    (hsize : c.size value < 2 ^ 64) : c.write value ≠ [] := by
  intro hnil
  have hread := h.read_write hv hsize []
  rw [hnil] at hread
  exact absurd (h.shortens hread) (Nat.lt_irrefl _)

theorem merge_eq_ok_iff {wireType : WireType} {old value : α} {bytes rest : Bytes} :
    c.merge wireType old bytes = ⟨value, .ok rest⟩ ↔
      wireType = c.wireType ∧ c.read bytes = .ok (value, rest) := by
  unfold Codec.merge checkWireType
  by_cases htype : c.wireType = wireType
  · rw [if_pos htype]
    cases hread : c.read bytes <;> simp [htype, Prod.ext_iff]
  · rw [if_neg htype]
    simp [Ne.symm htype]

theorem append_eq_ok_iff {values result : List α} {bytes rest : Bytes} :
    c.append values bytes = ⟨result, .ok rest⟩ ↔
      ∃ value, c.read bytes = .ok (value, rest) ∧ result = values ++ [value] := by
  unfold Codec.append
  constructor
  · intro h
    split at h
    · cases h
    · rename_i value left hread
      cases h
      exact ⟨value, hread, rfl⟩
  · rintro ⟨value, hread, rfl⟩
    rw [hread]

theorem merge_local (h : c.Lawful valid) (wireType : WireType) (old : α) :
    Local (Merged.takes (c.merge wireType old)) :=
  (h.isLocal.guard (wireType = c.wireType)).congr fun _ _ _ => merge_eq_ok_iff

theorem append_advances (h : c.Lawful valid) : Delimited.Advances c.append where
  isLocal values := (h.isLocal.map fun value => values ++ [value]).congr
    fun _ _ _ => append_eq_ok_iff
  shortens := by
    intro values result bytes rest ha
    obtain ⟨value, hread, _⟩ := append_eq_ok_iff.mp ha
    exact h.shortens hread

theorem mergeRepeated_packed (hpack : c.isPackable = true) (values : List α) (bytes : Bytes) :
    c.mergeRepeated .lengthDelimited values bytes =
      Delimited.mergeDelimited c.append values bytes := by
  simp [Codec.mergeRepeated, hpack]

/-- A single value is appended, whether or not its type can be packed: the wire type of a type that
can is not the one of packed runs. -/
theorem mergeRepeated_single (values : List α) (bytes : Bytes) :
    c.mergeRepeated c.wireType values bytes = c.append values bytes := by
  have hpack : (c.isPackable && c.wireType == .lengthDelimited) = false := by
    cases htype : c.wireType <;> simp [isPackable, htype]
  simp [Codec.mergeRepeated, hpack, checkWireType]

theorem mergeRepeated_local (h : c.Lawful valid) (wireType : WireType) (values : List α) :
    Local (Merged.takes (c.mergeRepeated wireType values)) := by
  unfold Codec.mergeRepeated checkWireType
  by_cases hpack : (c.isPackable && wireType == .lengthDelimited) = true
  · simp only [hpack, if_true]
    exact Delimited.mergeDelimited_local h.append_advances values
  · by_cases htype : c.wireType = wireType
    · simp only [hpack, htype, if_true]
      exact h.append_advances.isLocal values
    · simp only [hpack, htype, if_false]
      exact Local.never.congr fun _ _ _ => by simp [Merged.takes]

/-! ### Merging what was written -/

theorem merge_write (h : c.Lawful valid) (old : α) {value : α} (hv : valid value)
    (hsize : c.size value < 2 ^ 64) (rest : Bytes) :
    c.merge c.wireType old (c.write value ++ rest) = ⟨value, .ok rest⟩ :=
  merge_eq_ok_iff.mpr ⟨rfl, h.read_write hv hsize rest⟩

theorem append_write (h : c.Lawful valid) (values : List α) {value : α} (hv : valid value)
    (hsize : c.size value < 2 ^ 64) (rest : Bytes) :
    c.append values (c.write value ++ rest) = ⟨values ++ [value], .ok rest⟩ :=
  append_eq_ok_iff.mpr ⟨value, h.read_write hv hsize rest, rfl⟩

theorem length_flatMap_write (h : c.Lawful valid) {values : List α}
    (hsize : c.totalSize values < 2 ^ 64) :
    (values.flatMap c.write).length = c.totalSize values := by
  induction values with
  | nil => rfl
  | cons value others ih =>
    rw [Codec.totalSize] at hsize
    rw [List.flatMap_cons, List.length_append, h.length_write (by omega), ih (by omega),
      Codec.totalSize]

/-- The payloads of values, one behind the other, are read as these values. -/
theorem run_flatMap (h : c.Lawful valid) {values : List α} (hv : ∀ value ∈ values, valid value)
    (hsize : c.totalSize values < 2 ^ 64) (old : List α) :
    Delimited.Run c.append old (values.flatMap c.write) (old ++ values) := by
  induction values generalizing old with
  | nil =>
    rw [List.append_nil]
    exact .nil
  | cons value others ih =>
    rw [Codec.totalSize] at hsize
    have hvalue := hv value (List.mem_cons_self ..)
    have hothers := ih (fun v hmem => hv v (List.mem_cons_of_mem value hmem)) (by omega)
      (old ++ [value])
    rw [List.append_assoc] at hothers
    have hne : (value :: others).flatMap c.write ≠ [] := by
      simp [List.flatMap_cons, h.write_ne_nil hvalue (by omega)]
    exact .next hne (h.append_write old hvalue (by omega) _) hothers

/-- **A packed run is merged as the values it was written from.** -/
theorem mergeRepeated_write (h : c.Lawful valid) (hpack : c.isPackable = true) {values : List α}
    (hv : ∀ value ∈ values, valid value) (hsize : c.totalSize values < 2 ^ 64) (old : List α)
    (rest : Bytes) :
    c.mergeRepeated .lengthDelimited old
        (Varint.encode (c.totalSize values) ++ values.flatMap c.write ++ rest) =
      ⟨old ++ values, .ok rest⟩ := by
  rw [mergeRepeated_packed hpack]
  have hlen : Varint.decode (Varint.encode (c.totalSize values)) =
      .ok ((values.flatMap c.write).length, []) := by
    rw [h.length_flatMap_write hsize]
    exact Varint.decode_encode_alone hsize
  exact (Delimited.mergeDelimited_window h.append_advances hlen).mpr
    ⟨rfl, h.run_flatMap hv hsize old⟩

/-! ### Lengths -/

theorem length_encode (h : c.Lawful valid) (number : Nat) (value : α)
    (hsize : c.encodedLen number value < 2 ^ 64) :
    (c.encode number value).length = c.encodedLen number value := by
  rw [Codec.encodedLen] at hsize
  rw [Codec.encode, List.length_append, Key.length_encode, h.length_write (by omega),
    Codec.encodedLen]

theorem length_encodeRepeated (h : c.Lawful valid) (number : Nat) {values : List α}
    (hsize : c.encodedLenRepeated number values < 2 ^ 64) :
    (c.encodeRepeated number values).length = c.encodedLenRepeated number values := by
  induction values with
  | nil => rfl
  | cons value others ih =>
    simp only [Codec.encodedLenRepeated, Codec.totalSize, List.length_cons, Nat.mul_succ]
      at hsize ih ⊢
    have hothers := ih (by omega)
    have hvalue := h.length_encode number value (by rw [Codec.encodedLen]; omega)
    simp only [Codec.encodeRepeated, List.flatMap_cons, List.length_append] at hothers ⊢
    rw [hothers, hvalue, Codec.encodedLen]
    omega

theorem length_encodePacked (h : c.Lawful valid) (number : Nat) {values : List α}
    (hsize : c.encodedLenPacked number values < 2 ^ 64) :
    (c.encodePacked number values).length = c.encodedLenPacked number values := by
  unfold Codec.encodedLenPacked at hsize ⊢
  unfold Codec.encodePacked
  by_cases hempty : values.isEmpty = true
  · rw [if_pos hempty, if_pos hempty]
    rfl
  · rw [if_neg hempty] at hsize
    rw [if_neg hempty, if_neg hempty, List.length_append, List.length_append, Key.length_encode,
      Varint.length_encode (by omega), h.length_flatMap_write (by omega)]

end Protobuf.Codec.Lawful

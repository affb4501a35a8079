import Protobuf.Proofs.Wire.Locality

/-! Payloads of fields that are not known.

The key of a field says how its payload ends, so a field can be passed over by a reader that does
not know its type. `Payload` says what stands behind the key for each wire type, and how many levels
deep it nests: a field that is no group has one level, and a group has one more than the deepest
field in it. Keys and lengths need not be the shortest ones; what counts is that they are read.

`field_exact`: bytes are passed over, and nothing of what follows them, if and only if they are a
payload that nests no deeper than the budget. One that nests deeper comes to the limit, so that all
ways to read the same bytes as a payload nest equally deep. -/
namespace Protobuf.Skip

/-- What may stand behind the key of a field, nested so deep. A group is closed by the end of its
own number, or goes on with a field inside it, of whatever number. -/
inductive Payload : (depth : Nat) → WireType → (number : Nat) → Bytes → Prop where
  | varint {number n : Nat} {bytes : Bytes} : Varint.decode bytes = .ok (n, []) →
      Payload 1 .varint number bytes
  | sixtyFourBit {number : Nat} {bytes : Bytes} : bytes.length = 8 →
      Payload 1 .sixtyFourBit number bytes
  | thirtyTwoBit {number : Nat} {bytes : Bytes} : bytes.length = 4 →
      Payload 1 .thirtyTwoBit number bytes
  | lengthDelimited {number : Nat} {len bytes : Bytes} :
      Varint.decode len = .ok (bytes.length, []) →
      Payload 1 .lengthDelimited number (len ++ bytes)
  | close {number : Nat} {key : Bytes} : Key.decode key = .ok ((number, .endGroup), []) →
      Payload 1 .startGroup number key
  | inside {number inner depth others : Nat} {wireType : WireType} {key payload rest : Bytes} :
      Key.decode key = .ok ((inner, wireType), []) → Payload depth wireType inner payload →
      Payload others .startGroup number rest →
      Payload (max (depth + 1) others) .startGroup number (key ++ payload ++ rest)

/-! ### Fields in a group -/

section
variable {skip : WireType → Nat → Bytes → Except Malformed Bytes} {number inner : Nat}
  {wireType : WireType} {bytes mid : Bytes}

theorem group_error (hkey : Key.decode bytes = .ok ((inner, wireType), mid))
    (hend : wireType ≠ .endGroup) {e : Malformed} (h : skip wireType inner mid = .error e) :
    group skip number bytes = .error e := by
  rw [group, hkey]
  simp only [hend, if_false, h]

theorem group_next (hskip : ∀ wireType number, Local (Skip.takes (skip wireType number)))
    (hkey : Key.decode bytes = .ok ((inner, wireType), mid)) (hend : wireType ≠ .endGroup)
    {left : Bytes} (h : skip wireType inner mid = .ok left) :
    group skip number bytes = group skip number left := by
  have hshort : left.length < bytes.length :=
    Nat.lt_of_le_of_lt
      ((hskip wireType inner).length_le (show Skip.takes (skip wireType inner) mid () left from h))
      (Key.decode_length_lt hkey)
  rw [group, hkey]
  simp only [hend, if_false, h, hshort, if_true]

end

/-! ### Payloads -/

namespace Payload
variable {depth number : Nat} {wireType : WireType} {bytes : Bytes}

theorem depth_pos (h : Payload depth wireType number bytes) : 0 < depth := by
  cases h <;> omega

/-- The end of a group is no field. -/
theorem ne_endGroup (h : Payload depth wireType number bytes) : wireType ≠ .endGroup := by
  cases h <;> decide

/-- **A payload is passed over, up to its end and no further**, if the budget has a level for each
one that it nests. -/
theorem skip (h : Payload depth wireType number bytes) {budget : Nat} (hdepth : depth ≤ budget)
    (tail : Bytes) : field budget wireType number (bytes ++ tail) = .ok tail := by
  obtain ⟨budget, rfl⟩ : ∃ b, budget = b + 1 :=
    ⟨budget - 1, by have := h.depth_pos; omega⟩
  induction h generalizing budget tail with
  | varint hread =>
    have hread := Varint.decode_local.extend hread tail
    rw [List.nil_append] at hread
    rw [field, hread]
  | sixtyFourBit hlen => exact dropBytes_eq_ok_iff.mpr ⟨_, hlen, rfl⟩
  | thirtyTwoBit hlen => exact dropBytes_eq_ok_iff.mpr ⟨_, hlen, rfl⟩
  | @lengthDelimited number len payload hlen =>
    have hread : Delimited.readBytes (len ++ payload ++ tail) = .ok (payload, tail) := by
      rw [List.append_assoc]
      exact Delimited.readBytes_eq_ok_iff.mpr
        ⟨_, _, Varint.decode_local.extend hlen (payload ++ tail), rfl, rfl⟩
    rw [field, hread]
  | close hkey =>
    have hkey := Key.decode_local.extend hkey tail
    rw [List.nil_append] at hkey
    exact (group_eq_ok_iff (field_local budget)).mpr ⟨_, _, tail, hkey, by simp⟩
  | @inside number inner depth others wireType key payload rest hkey hfield hrest ihField ihRest =>
    -- The field inside has one level less; what is left of the group is a group of its own.
    have hpos := hfield.depth_pos
    obtain ⟨lower, rfl⟩ : ∃ b, budget = b + 1 := ⟨budget - 1, by omega⟩
    have hkey := Key.decode_local.extend hkey (payload ++ (rest ++ tail))
    rw [List.nil_append] at hkey
    have hsplit : key ++ payload ++ rest ++ tail = key ++ (payload ++ (rest ++ tail)) := by simp
    rw [hsplit]
    refine (group_eq_ok_iff (field_local (lower + 1))).mpr ⟨inner, wireType, _, hkey, ?_⟩
    rw [if_neg hfield.ne_endGroup]
    exact ⟨rest ++ tail, ihField (rest ++ tail) lower (by omega),
      ihRest tail (lower + 1) (by omega)⟩

/-- A payload that nests deeper than the budget comes to the limit, at the first field that is too
deep. -/
theorem tooDeep (h : Payload depth wireType number bytes) {budget : Nat} (hdepth : budget < depth)
    (tail : Bytes) :
    field budget wireType number (bytes ++ tail) = .error .recursionLimitReached := by
  induction h generalizing budget tail with
  | varint _ | sixtyFourBit _ | thirtyTwoBit _ | lengthDelimited _ | close _ =>
    rw [Nat.lt_one_iff.mp hdepth, field]
  | @inside number inner depth others wireType key payload rest hkey hfield hrest ihField ihRest =>
    cases budget with
    | zero => rw [field]
    | succ lower =>
      have hkey := Key.decode_local.extend hkey (payload ++ (rest ++ tail))
      rw [List.nil_append] at hkey
      have hsplit : key ++ payload ++ rest ++ tail = key ++ (payload ++ (rest ++ tail)) := by simp
      rw [hsplit]
      by_cases hlower : lower < depth
      · exact group_error hkey hfield.ne_endGroup (ihField hlower (rest ++ tail))
      · have hskip := hfield.skip (Nat.le_of_not_lt hlower) (rest ++ tail)
        rw [field, group_next (field_local lower) hkey hfield.ne_endGroup hskip]
        exact @ihRest (lower + 1) (by omega) tail

theorem depth_unique {depth' : Nat} (h : Payload depth wireType number bytes)
    (h' : Payload depth' wireType number bytes) : depth = depth' := by
  have hle {a b : Nat} (ha : Payload a wireType number bytes)
      (hb : Payload b wireType number bytes) : b ≤ a := by
    refine Nat.le_of_not_lt fun hlt => ?_
    have hskip := ha.skip (Nat.le_refl a) []
    rw [hb.tooDeep hlt []] at hskip
    cases hskip
  exact Nat.le_antisymm (hle h' h) (hle h h')

end Payload

/-! ### What is passed over -/

/-- A group that is passed over is a payload, if the fields in it are. -/
theorem exists_payload_of_group {budget : Nat}
    (hfield : ∀ {wireType : WireType} {number : Nat} {bytes : Bytes},
      field budget wireType number bytes = .ok [] →
        ∃ depth, Payload depth wireType number bytes ∧ depth ≤ budget)
    {number : Nat} {bytes : Bytes} (h : group (field budget) number bytes = .ok []) :
    ∃ depth, Payload depth .startGroup number bytes ∧ depth ≤ budget + 1 := by
  induction hn : bytes.length using Nat.strongRecOn generalizing bytes with
  | ind n ih =>
    obtain ⟨inner, wireType, mid, hread, hmid⟩ := (group_eq_ok_iff (field_local budget)).mp h
    have hshort := Key.decode_length_lt hread
    obtain ⟨key, rfl, hkeys⟩ := Key.decode_local hread
    have hkey : Key.decode (key ++ []) = .ok ((inner, wireType), []) := hkeys []
    rw [List.append_nil] at hkey
    by_cases hend : wireType = .endGroup
    · rw [if_pos hend] at hmid
      obtain ⟨rfl, rfl⟩ := hmid
      rw [hend] at hkey
      rw [List.append_nil]
      exact ⟨1, .close hkey, Nat.le_add_left 1 budget⟩
    · rw [if_neg hend] at hmid
      obtain ⟨left, hskip, hgroup⟩ := hmid
      obtain ⟨payload, rfl, hpayloads⟩ := field_local budget wireType inner
        (show Skip.takes _ mid () left from hskip)
      have hpayload : field budget wireType inner (payload ++ []) = .ok [] := hpayloads []
      rw [List.append_nil] at hpayload
      obtain ⟨depth, hinside, hdepth⟩ := hfield hpayload
      rw [List.length_append] at hshort
      obtain ⟨others, hrest, hothers⟩ := ih left.length (by omega) hgroup rfl
      rw [← List.append_assoc]
      exact ⟨max (depth + 1) others, .inside hkey hinside hrest, by omega⟩

/-- Bytes that are passed over to their end are a payload. -/
theorem exists_payload {budget : Nat} {wireType : WireType} {number : Nat} {bytes : Bytes}
    (h : field budget wireType number bytes = .ok []) :
    ∃ depth, Payload depth wireType number bytes ∧ depth ≤ budget := by
  induction budget generalizing wireType number bytes with
  | zero => cases h
  | succ budget ih =>
    have hone : 1 ≤ budget + 1 := Nat.le_add_left 1 budget
    cases wireType with
    | varint =>
      rw [field] at h
      split at h
      · cases h
      · rename_i n rest hread
        cases h
        exact ⟨1, .varint hread, hone⟩
    | sixtyFourBit =>
      obtain ⟨dropped, hlen, rfl⟩ := dropBytes_eq_ok_iff.mp h
      rw [List.append_nil]
      exact ⟨1, .sixtyFourBit hlen, hone⟩
    | thirtyTwoBit =>
      obtain ⟨dropped, hlen, rfl⟩ := dropBytes_eq_ok_iff.mp h
      rw [List.append_nil]
      exact ⟨1, .thirtyTwoBit hlen, hone⟩
    | lengthDelimited =>
      rw [field] at h
      split at h
      · cases h
      · rename_i payload rest hread
        cases h
        obtain ⟨len, mid, hlen, rfl, rfl⟩ := Delimited.readBytes_eq_ok_iff.mp hread
        obtain ⟨announced, rfl, hannounced⟩ := Varint.decode_local hlen
        have hlen : Varint.decode (announced ++ []) = .ok (payload.length, []) := hannounced []
        rw [List.append_nil] at hlen ⊢
        exact ⟨1, .lengthDelimited hlen, hone⟩
    | startGroup => exact exists_payload_of_group ih h
    | endGroup => cases h

/-- **Exactly the payloads are passed over that nest no deeper than the budget**, whatever follows
them. A payload that nests deeper comes to the limit, and its depth is given by its bytes. -/
theorem field_exact (budget : Nat) (wireType : WireType) (number : Nat) (bytes tail : Bytes) :
    (field budget wireType number (bytes ++ tail) = .ok tail ↔
      ∃ depth, Payload depth wireType number bytes ∧ depth ≤ budget) ∧
    (∀ depth, Payload depth wireType number bytes → budget < depth →
      field budget wireType number (bytes ++ tail) = .error .recursionLimitReached) ∧
    ∀ depth depth', Payload depth wireType number bytes → Payload depth' wireType number bytes →
      depth = depth' := by
  refine ⟨⟨fun h => ?_, fun h => ?_⟩, fun depth h hlt => h.tooDeep hlt tail,
    fun depth depth' h h' => h.depth_unique h'⟩
  · have halone : field budget wireType number (bytes ++ []) = .ok [] :=
      (field_local budget wireType number).replace (show Skip.takes _ _ () tail from h) []
    rw [List.append_nil] at halone
    exact exists_payload halone
  · obtain ⟨depth, hpayload, hdepth⟩ := h
    exact hpayload.skip hdepth tail

/-- A group with a varint and an empty group in it, and a byte behind it that is not its own. Two
levels are enough for it, and one is not. -/
theorem field_exact_group :
    Payload 2 .startGroup 2 ([0x08] ++ [0x05] ++ ([0x1b] ++ [0x1c] ++ [0x14])) ∧
      field 2 .startGroup 2 ([0x08] ++ [0x05] ++ ([0x1b] ++ [0x1c] ++ [0x14]) ++ [0xff]) =
        .ok [0xff] ∧
      field 1 .startGroup 2 ([0x08] ++ [0x05] ++ ([0x1b] ++ [0x1c] ++ [0x14]) ++ [0xff]) =
        .error .recursionLimitReached := by
  have hvarint : Payload 1 .varint 1 [0x05] := .varint rfl
  have hempty : Payload 1 .startGroup 3 [0x1c] := .close rfl
  have hclose : Payload 1 .startGroup 2 [0x14] := .close rfl
  have hrest : Payload 2 .startGroup 2 ([0x1b] ++ [0x1c] ++ [0x14]) := .inside rfl hempty hclose
  have hgroup : Payload 2 .startGroup 2 ([0x08] ++ [0x05] ++ ([0x1b] ++ [0x1c] ++ [0x14])) :=
    .inside rfl hvarint hrest
  obtain ⟨henough, -, -⟩ := field_exact 2 .startGroup 2 _ [0xff]
  obtain ⟨-, htooDeep, -⟩ := field_exact 1 .startGroup 2 _ [0xff]
  exact ⟨hgroup, henough.mpr ⟨2, hgroup, Nat.le_refl 2⟩, htooDeep 2 hgroup (by decide)⟩

end Protobuf.Skip

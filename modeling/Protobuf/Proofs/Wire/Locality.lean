import Protobuf.Wire.Skip

/-! Reading is local.

Readers see all bytes that are left, and compare lengths with them. Nevertheless a value that was
read depends on the bytes in front of the rest only: those bytes give the same value whatever
follows them. `Local` says so of a relation between the bytes, what is read, and the rest, so that
it covers readers, merges and skipping alike; it is kept when one reader follows another
(`Local.bind`). Nothing is said of failures, which do depend on what follows. -/
namespace Protobuf

/-- From which bytes a value is read, and with which bytes left. -/
abbrev Takes (α : Type) := Bytes → α → Bytes → Prop

/-- What a reader takes. -/
abbrev Reader.takes (r : Reader α) : Takes α :=
  fun bytes value rest => r bytes = .ok (value, rest)

/-- What a merge takes, the value being the state it reaches. -/
abbrev Merged.takes (merge : Bytes → Merged σ) : Takes σ :=
  fun bytes state rest => merge bytes = ⟨state, .ok rest⟩

/-- What skipping takes. -/
abbrev Skip.takes (skip : Bytes → Except Malformed Bytes) : Takes Unit :=
  fun bytes _ rest => skip bytes = .ok rest

/-- The bytes in front of the rest decide what is read. -/
def Local (takes : Takes α) : Prop :=
  ∀ ⦃bytes value rest⦄, takes bytes value rest →
    ∃ used, bytes = used ++ rest ∧ ∀ tail, takes (used ++ tail) value tail

namespace Local
variable {α β : Type} {takes : Takes α}

/-! ### What follows from it -/

theorem isSuffix (h : Local takes) {bytes rest : Bytes} {value : α} (ht : takes bytes value rest) :
    rest <:+ bytes := by
  obtain ⟨used, rfl, _⟩ := h ht
  exact List.suffix_append used rest

theorem length_le (h : Local takes) {bytes rest : Bytes} {value : α}
    (ht : takes bytes value rest) : rest.length ≤ bytes.length :=
  (h.isSuffix ht).length_le

/-- More bytes at the end stay unread. -/
theorem extend (h : Local takes) {bytes rest : Bytes} {value : α} (ht : takes bytes value rest)
    (tail : Bytes) : takes (bytes ++ tail) value (rest ++ tail) := by
  obtain ⟨used, rfl, hused⟩ := h ht
  rw [List.append_assoc]
  exact hused (rest ++ tail)

/-- Bytes at the end that were not reached can be left away. -/
theorem cut (h : Local takes) {bytes tail rest : Bytes} {value : α}
    (ht : takes (bytes ++ tail) value rest) (hlen : tail.length ≤ rest.length) :
    ∃ left, rest = left ++ tail ∧ takes bytes value left := by
  obtain ⟨used, hsplit, hused⟩ := h ht
  have hsuffix : tail <:+ rest :=
    List.suffix_of_suffix_length_le (List.suffix_append bytes tail) (h.isSuffix ht) hlen
  obtain ⟨left, rfl⟩ := hsuffix
  rw [← List.append_assoc] at hsplit
  rw [List.append_cancel_right hsplit]
  exact ⟨left, rfl, hused left⟩

/-- What follows the bytes that were read can be replaced. -/
theorem replace (h : Local takes) {used tail : Bytes} {value : α}
    (ht : takes (used ++ tail) value tail) (tail' : Bytes) : takes (used ++ tail') value tail' := by
  obtain ⟨read, hsplit, hread⟩ := h ht
  rw [List.append_cancel_right hsplit]
  exact hread tail'

/-! ### Building local readers -/

theorem congr {takes' : Takes α} (h : Local takes)
    (he : ∀ bytes value rest, takes' bytes value rest ↔ takes bytes value rest) : Local takes' := by
  intro bytes value rest ht
  obtain ⟨used, hsplit, hused⟩ := h ((he _ _ _).mp ht)
  exact ⟨used, hsplit, fun tail => (he _ _ _).mpr (hused tail)⟩

/-- Reading nothing. -/
theorem nothing (v : α) : Local fun bytes value rest => value = v ∧ rest = bytes := by
  rintro bytes value rest ⟨rfl, rfl⟩
  exact ⟨[], rfl, fun tail => ⟨rfl, rfl⟩⟩

/-- Failing always. -/
theorem never : Local fun (_ : Bytes) (_ : α) (_ : Bytes) => False :=
  fun _ _ _ h => h.elim

/-- A fixed number of bytes. -/
theorem chunk (count : Nat) :
    Local fun bytes value rest => value.length = count ∧ bytes = value ++ rest := by
  rintro bytes value rest ⟨hlen, rfl⟩
  exact ⟨value, rfl, fun tail => ⟨hlen, rfl⟩⟩

/-- One reader after the other. -/
theorem bind {next : α → Takes β} (h : Local takes) (hnext : ∀ a, Local (next a)) :
    Local fun bytes b rest => ∃ a mid, takes bytes a mid ∧ next a mid b rest := by
  rintro bytes b rest ⟨a, mid, ha, hb⟩
  obtain ⟨used, rfl, hused⟩ := h ha
  obtain ⟨more, rfl, hmore⟩ := hnext a hb
  refine ⟨used ++ more, (List.append_assoc used more rest).symm, fun tail => ?_⟩
  refine ⟨a, more ++ tail, ?_, hmore tail⟩
  rw [List.append_assoc]
  exact hused (more ++ tail)

theorem map (f : α → β) (h : Local takes) :
    Local fun bytes b rest => ∃ a, takes bytes a rest ∧ b = f a := by
  refine (h.bind fun a => nothing (f a)).congr fun bytes b rest => ?_
  constructor
  · rintro ⟨a, ha, rfl⟩
    exact ⟨a, rest, ha, rfl, rfl⟩
  · rintro ⟨a, mid, ha, rfl, rfl⟩
    exact ⟨a, ha, rfl⟩

theorem filter (p : α → Prop) (h : Local takes) :
    Local fun bytes a rest => takes bytes a rest ∧ p a := by
  rintro bytes a rest ⟨ha, hp⟩
  obtain ⟨used, hsplit, hused⟩ := h ha
  exact ⟨used, hsplit, fun tail => ⟨hused tail, hp⟩⟩

/-- A condition that does not look at the bytes. -/
theorem guard (p : Prop) (h : Local takes) : Local fun bytes a rest => p ∧ takes bytes a rest :=
  (h.filter fun _ => p).congr fun _ _ _ => and_comm

end Local

/-! ### Varints and keys -/

theorem Varint.decodeUpTo_local (room : Nat) : Local (Reader.takes (decodeUpTo room)) := by
  intro bytes n rest (h : decodeUpTo room bytes = .ok (n, rest))
  induction room generalizing bytes n with
  | zero => simp [decodeUpTo] at h
  | succ room ih =>
    cases bytes with
    | nil => simp [decodeUpTo] at h
    | cons b more =>
      rw [decodeUpTo] at h
      split at h
      · rename_i hb
        cases h
        exact ⟨[b], rfl, fun tail => by simp [Reader.takes, decodeUpTo, hb]⟩
      · rename_i hb
        split at h
        · cases h
        · rename_i m rest' hm
          cases h
          obtain ⟨used, rfl, hused⟩ := ih hm
          refine ⟨b :: used, rfl, fun tail => ?_⟩
          show decodeUpTo (room + 1) (b :: (used ++ tail)) = _
          rw [decodeUpTo, if_neg hb, hused tail]

theorem Varint.decode_eq_ok_iff {bytes rest : Bytes} {n : Nat} :
    decode bytes = .ok (n, rest) ↔
      decodeUpTo 10 bytes = .ok (n, rest) ∧ n < 0x10000000000000000 := by
  unfold decode
  split
  · rename_i e he
    simp [he]
  · rename_i m left hm
    rw [hm]
    split
    · rename_i hlt
      simp only [Except.ok.injEq, Prod.mk.injEq]
      constructor
      · rintro ⟨rfl, rfl⟩
        exact ⟨⟨rfl, rfl⟩, hlt⟩
      · rintro ⟨h, _⟩
        exact h
    · rename_i hge
      simp only [reduceCtorEq, Except.ok.injEq, Prod.mk.injEq, false_iff]
      rintro ⟨⟨rfl, _⟩, hlt⟩
      exact hge hlt

theorem Varint.decode_local : Local (Reader.takes decode) :=
  ((decodeUpTo_local 10).filter (· < 0x10000000000000000)).congr
    fun _ _ _ => decode_eq_ok_iff

theorem Key.decode_eq_ok_iff {bytes rest : Bytes} {field : Nat × WireType} :
    decode bytes = .ok (field, rest) ↔
      ∃ key, Varint.decode bytes = .ok (key, rest) ∧ ofValue key = .ok field := by
  unfold decode
  split
  · rename_i e he
    simp [he]
  · rename_i key left hkey
    rw [hkey]
    split
    · rename_i e he
      simp only [reduceCtorEq, Except.ok.injEq, Prod.mk.injEq, false_iff]
      rintro ⟨_, ⟨rfl, _⟩, hfield⟩
      rw [he] at hfield
      cases hfield
    · rename_i f hf
      simp only [Except.ok.injEq, Prod.mk.injEq]
      constructor
      · rintro ⟨rfl, rfl⟩
        exact ⟨key, ⟨rfl, rfl⟩, hf⟩
      · rintro ⟨_, ⟨rfl, rfl⟩, hfield⟩
        rw [hf] at hfield
        cases hfield
        exact ⟨rfl, rfl⟩

theorem Key.decode_local : Local (Reader.takes decode) := by
  intro bytes field rest h
  obtain ⟨key, hkey, hfield⟩ := decode_eq_ok_iff.mp h
  obtain ⟨used, rfl, hused⟩ := Varint.decode_local hkey
  exact ⟨used, rfl, fun tail => decode_eq_ok_iff.mpr ⟨key, hused tail, hfield⟩⟩

/-! ### Announced lengths -/

theorem Delimited.decodeLen_eq_ok_iff {bytes rest : Bytes} {len : Nat} :
    decodeLen bytes = .ok (len, rest) ↔
      Varint.decode bytes = .ok (len, rest) ∧ len ≤ rest.length := by
  unfold decodeLen
  split
  · rename_i e he
    simp [he]
  · rename_i n left hn
    rw [hn]
    split
    · rename_i hlt
      simp only [reduceCtorEq, Except.ok.injEq, Prod.mk.injEq, false_iff]
      rintro ⟨⟨rfl, rfl⟩, hle⟩
      omega
    · rename_i hge
      simp only [Except.ok.injEq, Prod.mk.injEq]
      constructor
      · rintro ⟨rfl, rfl⟩
        exact ⟨⟨rfl, rfl⟩, by omega⟩
      · rintro ⟨h, _⟩
        exact h

theorem Delimited.readBytes_eq_ok_iff {bytes payload rest : Bytes} :
    readBytes bytes = .ok (payload, rest) ↔
      ∃ len mid, Varint.decode bytes = .ok (len, mid) ∧ payload.length = len ∧
        mid = payload ++ rest := by
  unfold readBytes
  constructor
  · intro h
    split at h
    · cases h
    · rename_i len mid hlen
      cases h
      obtain ⟨hvarint, hle⟩ := decodeLen_eq_ok_iff.mp hlen
      exact ⟨len, mid, hvarint, List.length_take_of_le hle, (List.take_append_drop len mid).symm⟩
  · rintro ⟨len, mid, hvarint, rfl, rfl⟩
    have hlen : decodeLen bytes = .ok (payload.length, payload ++ rest) :=
      decodeLen_eq_ok_iff.mpr ⟨hvarint, by rw [List.length_append]; omega⟩
    rw [hlen]
    simp

/-- The check against the bytes that are left only asks for the payload itself. -/
theorem Delimited.readBytes_local : Local (Reader.takes readBytes) :=
  (Varint.decode_local.bind Local.chunk).congr fun _ _ _ => readBytes_eq_ok_iff

/-! ### Skipping -/

theorem Skip.dropBytes_eq_ok_iff {count : Nat} {bytes rest : Bytes} :
    dropBytes count bytes = .ok rest ↔
      ∃ dropped : Bytes, dropped.length = count ∧ bytes = dropped ++ rest := by
  unfold dropBytes
  constructor
  · intro h
    split at h
    · cases h
    · cases h
      exact ⟨bytes.take count, List.length_take_of_le (by omega),
        (List.take_append_drop count bytes).symm⟩
  · rintro ⟨dropped, rfl, rfl⟩
    have hge : ¬ (dropped ++ rest).length < dropped.length := by
      rw [List.length_append]
      omega
    rw [if_neg hge, List.drop_left]

theorem Skip.dropBytes_local (count : Nat) : Local (Skip.takes (dropBytes count)) := by
  refine ((Local.chunk count).map fun _ => ()).congr fun bytes _ rest => ?_
  show dropBytes count bytes = .ok rest ↔ _
  rw [dropBytes_eq_ok_iff]
  simp

/-- What a group consists of: its end, or a field and the remaining group. -/
theorem Skip.group_eq_ok_iff {skip : WireType → Nat → Bytes → Except Malformed Bytes}
    (hskip : ∀ wireType number, Local (Skip.takes (skip wireType number))) {number : Nat}
    {bytes rest : Bytes} :
    group skip number bytes = .ok rest ↔
      ∃ inner wireType mid, Key.decode bytes = .ok ((inner, wireType), mid) ∧
        if wireType = .endGroup then inner = number ∧ rest = mid
        else ∃ left, skip wireType inner mid = .ok left ∧ group skip number left = .ok rest := by
  rw [group]
  split
  · rename_i e he
    simp [he]
  · rename_i inner wireType mid hkey
    simp only [hkey, Except.ok.injEq, Prod.mk.injEq, and_assoc, exists_and_left, exists_eq_left']
    by_cases hend : wireType = .endGroup
    · rw [if_pos hend, if_pos hend]
      by_cases hnumber : inner = number
      · simp [hnumber, eq_comm]
      · simp [hnumber]
    · rw [if_neg hend, if_neg hend]
      cases hs : skip wireType inner mid with
      | error e => simp
      | ok left =>
        have hshort : left.length < bytes.length :=
          Nat.lt_of_le_of_lt
            ((hskip wireType inner).length_le
              (show Skip.takes (skip wireType inner) mid () left from hs))
            (Key.decode_length_lt hkey)
        simp [hshort]

theorem Skip.group_local {skip : WireType → Nat → Bytes → Except Malformed Bytes}
    (hskip : ∀ wireType number, Local (Skip.takes (skip wireType number))) (number : Nat) :
    Local (Skip.takes (group skip number)) := by
  intro bytes
  -- On the length of the bytes: the group behind a field is shorter than the one it stands in.
  induction hn : bytes.length using Nat.strongRecOn generalizing bytes with
  | ind n ih =>
    rintro ⟨⟩ rest h
    obtain ⟨inner, wireType, mid, hkey, h⟩ := (group_eq_ok_iff hskip).mp h
    obtain ⟨key, hbytes, hkeys⟩ := Key.decode_local hkey
    by_cases hend : wireType = .endGroup
    · rw [if_pos hend] at h
      obtain ⟨rfl, rfl⟩ := h
      refine ⟨key, hbytes, fun tail => (group_eq_ok_iff hskip).mpr ?_⟩
      exact ⟨inner, wireType, tail, hkeys tail, by simp [hend]⟩
    · rw [if_neg hend] at h
      obtain ⟨left, hfield, hgroup⟩ := h
      have hfield : Skip.takes (skip wireType inner) mid () left := hfield
      have hshort : left.length < n := by
        rw [← hn]
        exact Nat.lt_of_le_of_lt ((hskip wireType inner).length_le hfield)
          (Key.decode_length_lt hkey)
      obtain ⟨field, rfl, hfields⟩ := hskip wireType inner hfield
      obtain ⟨others, rfl, hothers⟩ := ih left.length hshort rfl
        (show Skip.takes (group skip number) left () rest from hgroup)
      refine ⟨key ++ (field ++ others), by simp [hbytes], fun tail => ?_⟩
      refine (group_eq_ok_iff hskip).mpr
        ⟨inner, wireType, field ++ (others ++ tail), ?_, ?_⟩
      · rw [List.append_assoc, List.append_assoc]
        exact hkeys _
      · rw [if_neg hend]
        exact ⟨others ++ tail, hfields _, hothers tail⟩

theorem Skip.field_local (budget : Nat) (wireType : WireType) (number : Nat) :
    Local (Skip.takes (field budget wireType number)) := by
  induction budget generalizing wireType number with
  | zero => exact Local.never.congr fun _ _ _ => by simp [Skip.takes, field]
  | succ budget ih =>
    cases wireType with
    | varint =>
      refine (Varint.decode_local.map fun _ => ()).congr fun bytes _ rest => ?_
      cases hv : Varint.decode bytes <;> simp [Skip.takes, field, Reader.takes, hv, Prod.ext_iff]
    | sixtyFourBit => exact dropBytes_local 8
    | lengthDelimited =>
      refine (Delimited.readBytes_local.map fun _ => ()).congr fun bytes _ rest => ?_
      cases hr : Delimited.readBytes bytes <;>
        simp [Skip.takes, field, Reader.takes, hr, Prod.ext_iff]
    | startGroup => exact group_local ih number
    | endGroup => exact Local.never.congr fun _ _ _ => by simp [Skip.takes, field]
    | thirtyTwoBit => exact dropBytes_local 4

end Protobuf

import Protobuf.Proofs.Record.Merging
import Protobuf.Proofs.Wire.Payload

/-! Messages as streams of fields.

Merging reads one field after the other, and each one is read alike whatever follows it. So bytes
that can be merged may be followed by any others: these are merged into what the first ones gave,
with the same result or the same failure (`merge_append`). In particular a field that the message
does not have can stand between any two others. It is passed over and changes nothing
(`mergeNext_unknown`), so that decoding cannot tell whether it was there. -/
namespace Protobuf.Record
variable {s : Schema} {type budget : Nat} {m m' : Record}

/-! ### One after the other -/

theorem mergeField_local (s : Schema) (budget type : Nat) (m : Record) (number : Nat)
    (wireType : WireType) : Local (Merged.takes (mergeField s budget type m number wireType)) :=
  mergeFieldWith_local (mergeNested_local s budget) budget type m number wireType

/-- Merging ends well if the bytes are a run of fields, and only then. -/
theorem merge_eq_ok_iff {bytes rest : Bytes} :
    merge s type m bytes = ⟨m', .ok rest⟩ ↔
      rest = [] ∧ Delimited.Run (mergeNext s recursionLimit type) m bytes m' :=
  Delimited.mergeWhile_zero_iff (mergeNext_advances s recursionLimit type)

theorem merge_append {front : Bytes}
    (h : Delimited.Run (mergeNext s recursionLimit type) m front m') (back : Bytes) :
    merge s type m (front ++ back) = merge s type m' back :=
  h.mergeWhile_append (mergeNext_advances s recursionLimit type) (Nat.zero_le back.length)

/-- **Merging is local and goes on where it stopped.** If bytes can be merged, then with others
behind them merging comes to the same end as merging the others into the result, be it a record or
an error. One field, known or not, is merged alike from its own bytes whatever follows them, at
every budget. -/
theorem merge_concatenates (s : Schema) (type : Nat) :
    (∀ (m m₁ : Record) (x rest : Bytes), merge s type m x = ⟨m₁, .ok rest⟩ →
      ∀ y, merge s type m (x ++ y) = merge s type m₁ y) ∧
    ∀ (budget number : Nat) (wireType : WireType) (m m₁ : Record) (used tail : Bytes),
      mergeField s budget type m number wireType (used ++ tail) = ⟨m₁, .ok tail⟩ →
        ∀ tail', mergeField s budget type m number wireType (used ++ tail') = ⟨m₁, .ok tail'⟩ := by
  constructor
  · intro m m₁ x rest h y
    exact merge_append (merge_eq_ok_iff.mp h).2 y
  · intro budget number wireType m m₁ used tail h tail'
    exact (mergeField_local s budget type m number wireType).replace h tail'

/-- A mark is read, and then another field follows it, or a byte that is none. A group that marks do
not have is passed over by its end, in front of the same. -/
theorem merge_concatenates_mark :
    merge Tree.schema 0 [.absent] [0x08, 0x07] = ⟨[.scalar (.i32 7)], .ok []⟩ ∧
      merge Tree.schema 0 [.absent] ([0x08, 0x07] ++ [0x08, 0x09]) =
        merge Tree.schema 0 [.scalar (.i32 7)] [0x08, 0x09] ∧
      merge Tree.schema 0 [.absent] ([0x08, 0x07] ++ [0xff]) =
        merge Tree.schema 0 [.scalar (.i32 7)] [0xff] ∧
      mergeField Tree.schema 1 0 [.absent] 2 .startGroup ([0x14] ++ [0xff]) =
        ⟨[.absent], .ok [0xff]⟩ := by
  obtain ⟨hmerge, hfield⟩ := merge_concatenates Tree.schema 0
  have hmark : merge Tree.schema 0 [.absent] [0x08, 0x07] = ⟨[.scalar (.i32 7)], .ok []⟩ :=
    merge_eq_ok_iff.mpr ⟨rfl, .single (by decide) rfl⟩
  have hgroup : mergeField Tree.schema 1 0 [.absent] 2 .startGroup ([0x14] ++ []) =
      ⟨[.absent], .ok []⟩ := by
    have hclose : Skip.Payload 1 .startGroup 2 [0x14] := .close rfl
    exact congrArg (Merged.mk [FieldValue.absent]) (hclose.skip (Nat.le_refl 1) [])
  exact ⟨hmark, hmerge _ _ _ _ hmark [0x08, 0x09], hmerge _ _ _ _ hmark [0xff],
    hfield _ _ _ _ _ _ _ hgroup [0xff]⟩

/-! ### Fields that a message does not have -/

/-- A field of no number that messages of the type have, with a payload of at most so many
levels. -/
inductive Unknown (s : Schema) (type levels : Nat) : Bytes → Prop where
  | mk {key payload : Bytes} {number depth : Nat} {wireType : WireType} :
      Key.decode key = .ok ((number, wireType), []) → (∀ f ∈ s.fields type, f.number ≠ number) →
      Skip.Payload depth wireType number payload → depth ≤ levels →
      Unknown s type levels (key ++ payload)

/-- Such a field is passed over, and the record stays as it was. -/
theorem mergeNext_unknown {bytes : Bytes} (h : Unknown s type budget bytes) (m : Record)
    (tail : Bytes) : mergeNext s budget type m (bytes ++ tail) = ⟨m, .ok tail⟩ := by
  obtain @⟨key, payload, number, depth, wireType, hkey, hnumber, hpayload, hdepth⟩ := h
  have hkey := Key.decode_local.extend hkey (payload ++ tail)
  have hnone : (s.fields type).findIdx? (·.number == number) = none := by
    rw [List.findIdx?_eq_none_iff]
    intro f hf
    simpa using hnumber f hf
  rw [List.append_assoc]
  refine mergeNextWith_eq_ok_iff.mpr ⟨(number, wireType), payload ++ tail, hkey, ?_⟩
  rw [mergeFieldWith, hnone]
  exact congrArg (Merged.mk m) (hpayload.skip hdepth tail)

theorem Unknown.ne_nil {bytes : Bytes} (h : Unknown s type budget bytes) : bytes ≠ [] := by
  obtain ⟨hkey, -, -, -⟩ := h
  have hpos := Key.decode_length_lt hkey
  intro hnil
  simp [(List.append_eq_nil_iff.mp hnil).1] at hpos

theorem Unknown.run {bytes : Bytes} (h : Unknown s type budget bytes) (m : Record) :
    Delimited.Run (mergeNext s budget type) m bytes m := by
  have hstep := mergeNext_unknown h m []
  rw [List.append_nil] at hstep
  exact .single h.ne_nil hstep

/-- **A field that the message does not have makes no difference to decoding**, wherever it stands
between two fields and whatever comes behind it. It may be a group with others in it, up to the
limit on their depth. -/
theorem decode_unknown_field (s : Schema) (type : Nat) {m : Record} {x u rest : Bytes}
    (hx : merge s type (s.unsetRecord type) x = ⟨m, .ok rest⟩) (hu : Unknown s type 100 u)
    (y : Bytes) : decode s type (x ++ u ++ y) = decode s type (x ++ y) := by
  have hrun := (merge_eq_ok_iff.mp hx).2
  have hmerge : merge s type (s.unsetRecord type) (x ++ u ++ y) =
      merge s type (s.unsetRecord type) (x ++ y) := by
    rw [List.append_assoc, merge_append hrun, merge_append (hu.run m), merge_append hrun]
  rw [decode, decode, hmerge]

/-- Behind a mark's number stands a group that marks do not have, with a field in it whose key is
longer than it need be. -/
theorem decode_unknown_field_group :
    merge Tree.schema 0 (Tree.schema.unsetRecord 0) [0x08, 0x07] = ⟨[.scalar (.i32 7)], .ok []⟩ ∧
      Unknown Tree.schema 0 100 ([0x13] ++ ([0x98, 0x00] ++ [0x05] ++ [0x14])) ∧
      decode Tree.schema 0
          ([0x08, 0x07] ++ ([0x13] ++ ([0x98, 0x00] ++ [0x05] ++ [0x14])) ++ [0x08, 0x09]) =
        decode Tree.schema 0 ([0x08, 0x07] ++ [0x08, 0x09]) := by
  have hx : merge Tree.schema 0 (Tree.schema.unsetRecord 0) [0x08, 0x07] =
      ⟨[.scalar (.i32 7)], .ok []⟩ :=
    merge_eq_ok_iff.mpr ⟨rfl, .single (by decide) rfl⟩
  have hfield : Skip.Payload 1 .varint 3 [0x05] := .varint rfl
  have hclose : Skip.Payload 1 .startGroup 2 [0x14] := .close rfl
  have hgroup : Skip.Payload 2 .startGroup 2 ([0x98, 0x00] ++ [0x05] ++ [0x14]) :=
    .inside rfl hfield hclose
  have hu : Unknown Tree.schema 0 100 ([0x13] ++ ([0x98, 0x00] ++ [0x05] ++ [0x14])) :=
    .mk rfl (by decide) hgroup (by decide)
  exact ⟨hx, hu, decode_unknown_field Tree.schema 0 hx hu [0x08, 0x09]⟩

end Protobuf.Record

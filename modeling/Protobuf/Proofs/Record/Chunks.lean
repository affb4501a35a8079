import Protobuf.Proofs.Record.Nesting

/-! Lists that are written in parts.

A repeated field may be written as one packed run of all its values or as a field for each of them,
and a reader has to accept both, also mixed with each other: whoever appends to a message writes
another field with the same number. Here a list is cut into chunks, and each chunk is written in
either way. Reading one field after the other then gives the values back in order, behind those that
were there before, and meets no other number (`run_chunks`). An empty run is not written at all. -/
namespace Protobuf.Codec

/-- A part of a list, to be written as a packed run or value by value. -/
structure Chunk (α : Type) where
  packed : Bool
  values : List α

namespace Chunk
variable {α : Type} (c : Codec α) (number : Nat)

def encode (chunk : Chunk α) : Bytes :=
  if chunk.packed then c.encodePacked number chunk.values
  else c.encodeRepeated number chunk.values

def encodedLen (chunk : Chunk α) : Nat :=
  if chunk.packed then c.encodedLenPacked number chunk.values
  else c.encodedLenRepeated number chunk.values

/-- How many fields are written: one for a run that is not empty, or one for each value. -/
def fieldCount (chunk : Chunk α) : Nat :=
  if chunk.packed then min 1 chunk.values.length else chunk.values.length

end Chunk

/-- Reads a key, notes its number, and merges what is behind it into a list. -/
def mergeNext (c : Codec α) (state : List Nat × List α) (bytes : Bytes) :
    Merged (List Nat × List α) :=
  match Key.decode bytes with
  | .error e => ⟨state, .error e⟩
  | .ok ((number, wireType), rest) =>
    (c.mergeRepeated wireType state.2 rest).map fun values => (state.1 ++ [number], values)

namespace Lawful
variable {α : Type} {c : Codec α} {valid : α → Prop}

/-! ### One field -/

theorem mergeNext_eq_ok_iff {state result : List Nat × List α} {bytes rest : Bytes} :
    c.mergeNext state bytes = ⟨result, .ok rest⟩ ↔
      ∃ field mid, Key.decode bytes = .ok (field, mid) ∧
        ((c.mergeRepeated field.2 state.2 mid).map fun values => (state.1 ++ [field.1], values)) =
          ⟨result, .ok rest⟩ := by
  unfold Codec.mergeNext
  cases hkey : Key.decode bytes with
  | error e => simp
  | ok found =>
    obtain ⟨field, mid⟩ := found
    simp only [Except.ok.injEq, Prod.mk.injEq, and_assoc, exists_and_left, exists_eq_left']

theorem mergeNext_advances (h : c.Lawful valid) : Delimited.Advances c.mergeNext where
  isLocal state :=
    (Key.decode_local.bind fun field =>
      (h.mergeRepeated_local field.2 state.2).mapMerged fun values =>
        (state.1 ++ [field.1], values)).congr fun _ _ _ => mergeNext_eq_ok_iff
  shortens := by
    intro state result bytes rest hnext
    obtain ⟨field, mid, hkey, hmerge⟩ := mergeNext_eq_ok_iff.mp hnext
    obtain ⟨values, hvalues, _⟩ := Merged.map_eq_ok_iff.mp hmerge
    exact Nat.lt_of_le_of_lt ((h.mergeRepeated_local field.2 state.2).length_le hvalues)
      (Key.decode_length_lt hkey)

section
variable {number : Nat} (hlow : 1 ≤ number) (hhigh : number ≤ Key.maxNumber)
include hlow hhigh

theorem run_key {wireType : WireType} {payload : Bytes} {old new : List α}
    (h : c.mergeRepeated wireType old payload = ⟨new, .ok []⟩) (numbers : List Nat) :
    Delimited.Run c.mergeNext (numbers, old) (Key.encode number wireType ++ payload)
      (numbers ++ [number], new) := by
  refine .single (by simp [Key.encode_ne_nil]) ?_
  exact mergeNext_eq_ok_iff.mpr
    ⟨_, payload, Key.decode_encode hlow hhigh wireType payload, by rw [h]; rfl⟩

/-! ### Chunks -/

theorem run_encodePacked (h : c.Lawful valid) (hpack : c.isPackable = true) {values : List α}
    (hv : ∀ value ∈ values, valid value) (hlen : c.encodedLenPacked number values < 2 ^ 64)
    (numbers : List Nat) (old : List α) :
    Delimited.Run c.mergeNext (numbers, old) (c.encodePacked number values)
      (numbers ++ List.replicate (min 1 values.length) number, old ++ values) := by
  cases values with
  | nil =>
    simp only [List.length_nil, Nat.min_zero, List.replicate_zero, List.append_nil]
    exact .nil
  | cons value others =>
    rw [encodedLenPacked, if_neg (by simp)] at hlen
    have hone : min 1 (value :: others).length = 1 := by
      rw [List.length_cons]
      omega
    rw [encodePacked, if_neg (by simp), List.append_assoc, hone]
    have hmerge := h.mergeRepeated_write hpack hv (by omega) old []
    rw [List.append_nil] at hmerge
    exact run_key hlow hhigh hmerge numbers

theorem run_encodeRepeated (h : c.Lawful valid) {values : List α}
    (hv : ∀ value ∈ values, valid value) (hlen : c.encodedLenRepeated number values < 2 ^ 64)
    (numbers : List Nat) (old : List α) :
    Delimited.Run c.mergeNext (numbers, old) (c.encodeRepeated number values)
      (numbers ++ List.replicate values.length number, old ++ values) := by
  induction values generalizing numbers old with
  | nil =>
    rw [List.length_nil, List.replicate_zero, List.append_nil, List.append_nil]
    exact .nil
  | cons value others ih =>
    simp only [encodedLenRepeated, totalSize, List.length_cons, Nat.mul_succ] at hlen ih
    have hmerge := h.append_write old (hv value (List.mem_cons_self ..)) (by omega) []
    rw [List.append_nil, ← mergeRepeated_single] at hmerge
    have hfirst := run_key hlow hhigh hmerge numbers
    have hothers := ih (fun v hmem => hv v (List.mem_cons_of_mem value hmem)) (by omega)
      (numbers ++ [number]) (old ++ [value])
    rw [List.append_assoc, List.append_assoc] at hothers
    exact hfirst.append h.mergeNext_advances hothers

theorem run_chunk (h : c.Lawful valid) (hpack : c.isPackable = true) {chunk : Chunk α}
    (hv : ∀ value ∈ chunk.values, valid value) (hlen : chunk.encodedLen c number < 2 ^ 64)
    (numbers : List Nat) (old : List α) :
    Delimited.Run c.mergeNext (numbers, old) (chunk.encode c number)
      (numbers ++ List.replicate chunk.fieldCount number, old ++ chunk.values) := by
  unfold Chunk.encodedLen at hlen
  unfold Chunk.encode Chunk.fieldCount
  by_cases hpacked : chunk.packed = true
  · rw [if_pos hpacked] at hlen ⊢
    rw [if_pos hpacked]
    exact run_encodePacked hlow hhigh h hpack hv hlen numbers old
  · rw [if_neg hpacked] at hlen ⊢
    rw [if_neg hpacked]
    exact run_encodeRepeated hlow hhigh h hv hlen numbers old

/-- All chunks, one after the other. -/
theorem run_chunks (h : c.Lawful valid) (hpack : c.isPackable = true) {chunks : List (Chunk α)}
    (hv : ∀ chunk ∈ chunks, ∀ value ∈ chunk.values, valid value)
    (hlen : ∀ chunk ∈ chunks, chunk.encodedLen c number < 2 ^ 64) (numbers : List Nat)
    (old : List α) :
    Delimited.Run c.mergeNext (numbers, old) (chunks.flatMap (Chunk.encode c number))
      (numbers ++ List.replicate (chunks.map Chunk.fieldCount).sum number,
        old ++ chunks.flatMap Chunk.values) := by
  induction chunks generalizing numbers old with
  | nil =>
    simp only [List.flatMap_nil, List.map_nil, List.sum_nil, List.replicate_zero, List.append_nil]
    exact .nil
  | cons chunk others ih =>
    rw [List.forall_mem_cons] at hv hlen
    have hfirst := run_chunk hlow hhigh h hpack hv.1 hlen.1 numbers old
    have hothers := ih hv.2 hlen.2 (numbers ++ List.replicate chunk.fieldCount number)
      (old ++ chunk.values)
    rw [List.append_assoc, List.replicate_append_replicate, List.append_assoc] at hothers
    rw [List.flatMap_cons, List.map_cons, List.sum_cons, List.flatMap_cons]
    exact hfirst.append h.mergeNext_advances hothers

end

theorem length_chunk (h : c.Lawful valid) (number : Nat) {chunk : Chunk α}
    (hlen : chunk.encodedLen c number < 2 ^ 64) :
    (chunk.encode c number).length = chunk.encodedLen c number := by
  unfold Chunk.encodedLen at hlen ⊢
  unfold Chunk.encode
  by_cases hpacked : chunk.packed = true
  · rw [if_pos hpacked] at hlen ⊢
    rw [if_pos hpacked]
    exact h.length_encodePacked number hlen
  · rw [if_neg hpacked] at hlen ⊢
    rw [if_neg hpacked]
    exact h.length_encodeRepeated number hlen

end Lawful

/-! ### Scalars and enums -/

/-- **Packed and unpacked values are read alike.** Take a type that can be packed, a number that
fields may have, and a list in chunks, each written as a packed run or value by value. Reading keys
and merging what is behind them, until no bytes are left, appends the whole list in order to what
was there before and meets no other number. Each chunk takes as many bytes as was computed for it;
lengths are words of 64 bits. -/
theorem merge_chunks (t : FieldType) (hpack : t.codec.isPackable = true) (number : Nat)
    (hlow : 1 ≤ number) (hhigh : number ≤ 2 ^ 29 - 1) (chunks : List (Chunk ScalarValue))
    (hvalues : ∀ chunk ∈ chunks, ∀ value ∈ chunk.values, t.Holds value)
    (hlen : ∀ chunk ∈ chunks, chunk.encodedLen t.codec number < 2 ^ 64) (old : List ScalarValue) :
    Delimited.mergeWhile t.codec.mergeNext 0 ([], old)
        (chunks.flatMap (Chunk.encode t.codec number)) =
      ⟨(List.replicate (chunks.map Chunk.fieldCount).sum number,
        old ++ chunks.flatMap Chunk.values), .ok []⟩ ∧
    ∀ chunk ∈ chunks, (chunk.encode t.codec number).length = chunk.encodedLen t.codec number := by
  have hlawful := t.codec_lawful
  constructor
  · have hrun := Lawful.run_chunks hlow hhigh hlawful hpack hvalues hlen [] old
    exact (Delimited.mergeWhile_zero hlawful.mergeNext_advances).mpr hrun
  · intro chunk hchunk
    exact hlawful.length_chunk number (hlen chunk hchunk)

/-- Negative numbers in a packed run, an empty run, and two values on their own, behind a number
that was there. The largest field number has the longest key. -/
theorem merge_chunks_sint32 :
    Delimited.mergeWhile Scalar.sint32.codec.mergeNext 0 ([], [.i32 9])
        ([⟨true, [.i32 (-1), .i32 (-2147483648)]⟩, ⟨true, []⟩, ⟨false, [.i32 3, .i32 0]⟩].flatMap
          (Chunk.encode Scalar.sint32.codec 536870911)) =
      ⟨([536870911, 536870911, 536870911],
        [.i32 9, .i32 (-1), .i32 (-2147483648), .i32 3, .i32 0]), .ok []⟩ ∧
    (Chunk.encode Scalar.sint32.codec 536870911
      ⟨true, [.i32 (-1), .i32 (-2147483648)]⟩).length = 12 := by
  obtain ⟨hmerge, hlength⟩ := merge_chunks (.scalar .sint32) rfl 536870911 (by decide) (by decide)
    [⟨true, [.i32 (-1), .i32 (-2147483648)]⟩, ⟨true, []⟩, ⟨false, [.i32 3, .i32 0]⟩]
    (by simp [FieldType.Holds, Scalar.Holds]) (by decide) [.i32 9]
  exact ⟨hmerge, hlength _ (List.mem_cons_self ..)⟩

end Protobuf.Codec

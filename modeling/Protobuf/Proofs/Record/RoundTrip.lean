import Protobuf.Proofs.Record.Merging

/-! Reading back what was written.

Decoding merges the bytes into an unset message and then asks for the required fields. Merging gives
the record that was written, but for the signs of zeros that are not (`combine_unset`), and the
check accepts exactly the records with all required fields set (`check_eq_ok_iff`), which the lost
signs do not touch. So every record of a linked schema can be read back if it nests at most a
hundred levels deep, also behind its length with anything following, and a deeper one is refused. -/
namespace Protobuf.Record
variable {s : Schema} {type : Nat}

/-! ### Required fields -/

theorem checkPresence_eq_ok_iff (message : String) {f : Field} {value : FieldValue} :
    checkPresence message f value = .ok () ↔
      (f.cardinality = .required → value.isAbsent = false) := by
  unfold checkPresence
  by_cases hmissing : f.cardinality = .required ∧ value.isAbsent = true
  · rw [if_pos hmissing]
    simp [hmissing.1, hmissing.2]
  · rw [if_neg hmissing]
    simpa using hmissing

mutual

theorem checkContents_eq_ok_iff (s : Schema) (f : Field) : (value : FieldValue) →
    (checkContents s f value = .ok () ↔ RequiredInside s f value)
  | .absent => by simp [checkContents, RequiredInside]
  | .scalar _ => by simp [checkContents, RequiredInside]
  | .scalars _ => by simp [checkContents, RequiredInside]
  | .message record => by
    rw [checkContents, RequiredInside]
    exact checkFields_eq_ok_iff s (s.nameInside f) (s.fieldsInside f) record
  | .messages records => by
    rw [checkContents, RequiredInside]
    exact checkRecords_eq_ok_iff s f records

theorem checkFields_eq_ok_iff (s : Schema) (message : String) (fields : List Field) :
    (record : List FieldValue) →
      (checkFields s message fields record = .ok () ↔ RequiredSet s fields record)
  | [] => by simp [checkFields, RequiredSet]
  | value :: rest => by
    cases fields with
    | nil => simp [checkFields, RequiredSet]
    | cons f others =>
      rw [checkFields, RequiredSet, ← checkPresence_eq_ok_iff message,
        ← checkContents_eq_ok_iff s f value, ← checkFields_eq_ok_iff s message others rest]
      cases checkPresence message f value with
      | error e => simp
      | ok found => cases checkContents s f value <;> simp

theorem checkRecords_eq_ok_iff (s : Schema) (f : Field) : (records : List (List FieldValue)) →
    (checkRecords s f records = .ok () ↔ RequiredSetEach s f records)
  | [] => by simp [checkRecords, RequiredSetEach]
  | record :: rest => by
    rw [checkRecords, RequiredSetEach, ← checkRecords_eq_ok_iff s f rest,
      ← checkFields_eq_ok_iff s (s.nameInside f) (s.fieldsInside f) record]
    cases checkFields s (s.nameInside f) (s.fieldsInside f) record <;> simp

end

/-- The check accepts exactly the records with all required fields set. -/
theorem check_eq_ok_iff {record : Record} :
    check s type record = .ok () ↔ RequiredSet s (s.fields type) record :=
  checkFields_eq_ok_iff s (s.typeName type) (s.fields type) record

theorem isAbsent_normalizeField (s : Schema) (f : Field) (value : FieldValue) :
    (normalizeField s f value).isAbsent = value.isAbsent := by
  cases value <;> simp [normalizeField, FieldValue.isAbsent]

mutual

theorem RequiredInside.normalize (s : Schema) (f : Field) : (value : FieldValue) →
    RequiredInside s f value → RequiredInside s f (normalizeField s f value)
  | .absent, h => by rwa [normalizeField]
  | .scalar _, _ => by
    rw [normalizeField, RequiredInside]
    trivial
  | .scalars _, h => by rwa [normalizeField]
  | .message record, h => by
    rw [normalizeField, RequiredInside]
    rw [RequiredInside] at h
    exact RequiredSet.normalize s (s.fieldsInside f) record h
  | .messages records, h => by
    rw [normalizeField, RequiredInside]
    rw [RequiredInside] at h
    exact RequiredSetEach.normalize s f records h

theorem RequiredSet.normalize (s : Schema) (fields : List Field) : (record : List FieldValue) →
    RequiredSet s fields record → RequiredSet s fields (normalize s fields record)
  | [], h => by rwa [Record.normalize]
  | value :: rest, h => by
    cases fields with
    | nil => exact h
    | cons f others =>
      rw [RequiredSet] at h
      rw [Record.normalize, RequiredSet, isAbsent_normalizeField]
      exact ⟨h.1, RequiredInside.normalize s f value h.2.1,
        RequiredSet.normalize s others rest h.2.2⟩

theorem RequiredSetEach.normalize (s : Schema) (f : Field) : (records : List (List FieldValue)) →
    RequiredSetEach s f records → RequiredSetEach s f (normalizeEach s f records)
  | [], h => by rwa [normalizeEach]
  | record :: rest, h => by
    rw [RequiredSetEach] at h
    rw [normalizeEach, RequiredSetEach]
    exact ⟨RequiredSet.normalize s (s.fieldsInside f) record h.1,
      RequiredSetEach.normalize s f rest h.2⟩

end

/-! ### Decoding -/

theorem merge_unset (hs : s.WellFormed) {m : Record} (hm : HasType s type m)
    (hlen : encodedLen s type m < 2 ^ 64) (hdepth : depth m ≤ recursionLimit) :
    merge s type (s.unsetRecord type) (encode s type m) =
      ⟨normalize s (s.fields type) m, .ok []⟩ := by
  rw [merge_encode hs (unset_hasType hs type) hm hlen hdepth, Schema.unsetRecord,
    combine_unset s (s.fields type) m hm]

theorem complete_normalize {m : Record} (hrequired : RequiredSet s (s.fields type) m) :
    complete s type ⟨normalize s (s.fields type) m, .ok []⟩ =
      .ok (normalize s (s.fields type) m) := by
  have hcheck := check_eq_ok_iff.mpr (hrequired.normalize s (s.fields type) m)
  simp only [complete, hcheck]

/-- Behind its length, the message is cut out of what follows. -/
theorem mergeDelimited_append {m : Record} (hlen : encodedLen s type m < 2 ^ 64) (into : Record)
    (tail : Bytes) :
    mergeDelimited s type into (encodeDelimited s type m ++ tail) =
      merge s type into (encode s type m) := by
  have hread : Delimited.readBytes (encodeDelimited s type m ++ tail) =
      .ok (encode s type m, tail) := by
    rw [encodeDelimited, List.append_assoc]
    refine Delimited.readBytes_eq_ok_iff.mpr ⟨_, _, Varint.decode_encode hlen _, ?_, rfl⟩
    exact length_inOrder_parts s (s.fields type) m hlen
  rw [mergeDelimited, hread]

theorem complete_error {r : Merged Record} {e : Malformed} (h : r.rest = .error e) :
    complete s type r = .error (.malformed e) := by
  rw [complete, h]

/-- **What was written can be read back**, for every message type of a linked schema. If all
required fields are set and the record nests at most a hundred levels deep, decoding gives it back
without the signs of zeros that were not written, alone and behind its length in front of anything;
if it nests deeper, decoding reaches the limit. The length of the bytes is to be a word of
64 bits. -/
theorem decode_written {files : List LoadedFile} {s : Schema} (hlink : Linking.link files = .ok s)
    (type : Nat) {m : Record} (hm : HasType s type m) (hlen : encodedLen s type m < 2 ^ 64) :
    (RequiredSet s (s.fields type) m → depth m ≤ 100 →
      decode s type (encode s type m) = .ok (normalize s (s.fields type) m) ∧
        ∀ tail, decodeDelimited s type (encodeDelimited s type m ++ tail) =
          .ok (normalize s (s.fields type) m)) ∧
      (100 < depth m →
        decode s type (encode s type m) = .error (.malformed .recursionLimitReached)) := by
  have hs := Linking.wellFormed_of_link hlink
  constructor
  · intro hrequired hdepth
    have hmerge := merge_unset hs hm hlen hdepth
    constructor
    · rw [decode, hmerge, complete_normalize hrequired]
    · intro tail
      rw [decodeDelimited, mergeDelimited_append hlen, hmerge, complete_normalize hrequired]
  · intro hdepth
    exact complete_error (merge_encode_tooDeep hs (unset_hasType hs type) hm hlen hdepth)

end Protobuf.Record

/-! ### Long chains -/

namespace Protobuf.Tree
open Record

/-- So many nodes, one behind the other, before a leaf. -/
def chain : Nat → Record
  | 0 => leaf
  | n + 1 => [.message (chain n), .scalar (.f64 0), .messages [], .scalars [], .absent]

theorem chain_hasType (n : Nat) : HasType schema 1 (chain n) := by
  induction n with
  | zero => exact leaf_hasType
  | succ n ih =>
    exact ⟨⟨by decide, rfl, ih⟩, ⟨by decide, trivial⟩, ⟨rfl, rfl, trivial⟩, ⟨rfl, rfl, by simp⟩,
      .inl rfl, rfl⟩

theorem depth_chain (n : Nat) : depth (chain n) = n := by
  induction n with
  | zero => rfl
  | succ n ih => simp [chain, depth, valueDepth, depthOfEach, ih]

end Protobuf.Tree

namespace Protobuf.Record

/-- A branch is read back with its mark and its NaN, but its leaves lose their sign; a chain of 101
messages inside each other is too deep. -/
theorem decode_written_branch :
    Linking.link Tree.files = .ok Tree.schema ∧
      (HasType Tree.schema 1 Tree.branch ∧ encodedLen Tree.schema 1 Tree.branch < 2 ^ 64 ∧
        RequiredSet Tree.schema (Tree.schema.fields 1) Tree.branch ∧ depth Tree.branch ≤ 100 ∧
        decode Tree.schema 1 (encode Tree.schema 1 Tree.branch) =
          .ok [.message [.absent, .scalar (.f64 0), .messages [], .scalars [], .absent],
            .scalar (.f64 0x7ff8000000000001),
            .messages
              [[.absent, .scalar (.f64 0), .messages [], .scalars [], .absent],
                [.absent, .scalar (.f64 0), .messages [], .scalars [], .absent]],
            .scalars [.u32 1, .u32 300], .message [.scalar (.i32 (-1))]]) ∧
      (HasType Tree.schema 1 (Tree.chain 101) ∧
        encodedLen Tree.schema 1 (Tree.chain 101) < 2 ^ 64 ∧ 100 < depth (Tree.chain 101) ∧
        decode Tree.schema 1 (encode Tree.schema 1 (Tree.chain 101)) =
          .error (.malformed .recursionLimitReached)) := by
  have hlen : encodedLen Tree.schema 1 Tree.branch < 2 ^ 64 := by decide
  have hrequired : RequiredSet Tree.schema (Tree.schema.fields 1) Tree.branch := by
    simp [RequiredSet, RequiredInside, RequiredSetEach, Schema.fields, Schema.fieldsInside,
      Tree.schema, Tree.node, Tree.mark, Tree.branch, Tree.leaf, FieldValue.isAbsent]
  have hdepth : depth Tree.branch ≤ 100 := by decide
  have hlong : encodedLen Tree.schema 1 (Tree.chain 101) < 2 ^ 64 := by decide +kernel
  have hdeep : 100 < depth (Tree.chain 101) := by
    rw [Tree.depth_chain]
    decide
  refine ⟨Tree.link_files, ⟨Tree.branch_hasType, hlen, hrequired, hdepth, ?_⟩,
    ⟨Tree.chain_hasType 101, hlong, hdeep, ?_⟩⟩
  · exact ((decode_written Tree.link_files 1 Tree.branch_hasType hlen).1 hrequired hdepth).1
  · exact (decode_written Tree.link_files 1 (Tree.chain_hasType 101) hlong).2 hdeep

end Protobuf.Record

import Protobuf.Proofs.Record.FieldMerge

/-! Merging messages that were written.

The fields of a message are written in the order of their numbers, which need not be the order of
its values. Each one changes a value of its own, so that in the end every value is the combined one,
whatever the order (`outcome_fields`). Messages nest, and the budget with them: with a budget of
zero no message can be read inside another, and with one level more it is read like a message on its
own with one level less (`nestedMerges`). So merging the bytes of a record is `combine`, up to the
depth that the budget allows, and beyond it the limit is reached (`outcome_record`). -/
namespace Protobuf.Record
variable {s : Schema} {budget type : Nat}

/-! ### Fields in the order of their numbers -/

/-- The fields with their values and places, in the order of their numbers. -/
def ordered (fields : List Field) (record : Record) : List ((Field × FieldValue) × Nat) :=
  (fields.zip record).zipIdx.mergeSort fun a b => a.1.1.number ≤ b.1.1.number

theorem parts_eq (s : Schema) (fields : List Field) (record : Record) :
    parts s fields record =
      (fields.zip record).map fun x => (x.1.number, encodeField s x.1 x.2) := by
  induction record generalizing fields with
  | nil => simp [parts]
  | cons value rest ih =>
    cases fields with
    | nil => rfl
    | cons f others => rw [parts, ih, List.zip_cons_cons, List.map_cons]

theorem inOrder_parts (s : Schema) (fields : List Field) (record : Record) :
    inOrder (parts s fields record) =
      (ordered fields record).flatMap fun x => encodeField s x.1.1 x.1.2 := by
  have hparts : parts s fields record = (fields.zip record).zipIdx.map
      fun x => (x.1.1.number, encodeField s x.1.1 x.1.2) := by
    rw [parts_eq]
    conv => lhs; rw [← List.zipIdx_map_fst 0 (fields.zip record)]
    rw [List.map_map]
    rfl
  rw [inOrder, hparts, ← List.map_mergeSort (r := fun a b => a.1.1.number ≤ b.1.1.number),
    List.flatMap_map]
  · rfl
  · intro a _ b _
    rfl

theorem mem_ordered {fields : List Field} {record : Record} {x : (Field × FieldValue) × Nat} :
    x ∈ ordered fields record ↔ fields[x.2]? = some x.1.1 ∧ record[x.2]? = some x.1.2 := by
  rw [ordered, (List.mergeSort_perm _ _).mem_iff, List.mem_zipIdx_iff_getElem?]
  exact List.getElem?_zip_eq_some

theorem ordered_nodup (fields : List Field) (record : Record) :
    ((ordered fields record).map (·.2)).Nodup := by
  have hperm := (List.mergeSort_perm (fields.zip record).zipIdx
    fun a b => a.1.1.number ≤ b.1.1.number).map (·.2)
  refine hperm.nodup_iff.mpr ?_
  rw [List.zipIdx_map_snd]
  exact List.nodup_range'

/-! ### One field after the other -/

/-- Part way through: places still to be read have their old values, all others their final
ones. -/
structure PartWay (old final : Record) (places : List ((Field × FieldValue) × Nat)) (m : Record) :
    Prop where
  todo : ∀ x ∈ places, m[x.2]? = old[x.2]?
  done : ∀ i, i ∉ places.map (·.2) → m[i]? = final[i]?

theorem PartWay.eq_final {old final m : Record} (h : PartWay old final [] m) : m = final :=
  List.ext_getElem? fun i => h.done i (by simp)

theorem PartWay.set {old final m : Record} {x : (Field × FieldValue) × Nat}
    {rest : List ((Field × FieldValue) × Nat)} (h : PartWay old final (x :: rest) m)
    (hfresh : x.2 ∉ rest.map (·.2)) (hi : x.2 < m.length) {new : FieldValue}
    (hnew : final[x.2]? = some new) : PartWay old final rest (m.set x.2 new) where
  todo y hy := by
    have hne : x.2 ≠ y.2 := fun he => hfresh (List.mem_map.mpr ⟨y, hy, he.symm⟩)
    rw [List.getElem?_set_ne hne]
    exact h.todo y (List.mem_cons_of_mem x hy)
  done j hj := by
    by_cases hij : x.2 = j
    · rw [← hij, List.getElem?_set_self hi, hnew]
    · rw [List.getElem?_set_ne hij]
      exact h.done j (by simpa [Ne.symm hij] using hj)

theorem outcome_fields (hs : s.WellFormed) (hn : NestedMerges s budget) {a b m : Record}
    (ha : HasType s type a) (hb : HasType s type b) (hlen : encodedLen s type b < 2 ^ 64)
    {places : List ((Field × FieldValue) × Nat)} (hnodup : (places.map (·.2)).Nodup)
    (hplaces : ∀ x ∈ places, x ∈ ordered (s.fields type) b)
    (hm : PartWay a (combine s (s.fields type) a b) places m) :
    Outcome (mergeNext s budget type) (∀ x ∈ places, valueDepth x.1.2 ≤ budget) m
      (places.flatMap fun x => encodeField s x.1.1 x.1.2) (combine s (s.fields type) a b) := by
  induction places generalizing m with
  | nil =>
    rw [hm.eq_final]
    exact .of_run (by simp) .nil
  | cons x rest ih =>
    rw [List.map_cons, List.nodup_cons] at hnodup
    obtain ⟨hf, hvalue⟩ := mem_ordered.mp (hplaces x (List.mem_cons_self ..))
    obtain ⟨old, hold⟩ : ∃ old, a[x.2]? = some old :=
      ⟨_, List.getElem?_eq_getElem (ha.length_eq ▸ (List.getElem?_eq_some_iff.mp hf).1)⟩
    have hshort : fieldLen s x.1.1 x.1.2 < 2 ^ 64 := by
      have hzip := List.mem_of_getElem? (List.getElem?_zip_eq_some.mpr ⟨hf, hvalue⟩)
      exact Nat.lt_of_le_of_lt (fieldLen_le_lenOf hzip) hlen
    have hat : FieldAt s type m x.2 x.1.1 old :=
      ⟨hf, (hm.todo x (List.mem_cons_self ..)).trans hold⟩
    have hfirst := outcome_field hs hn hat (ha.field hf hold) (hb.field hf hvalue) hshort
    have hnext := hm.set hnodup.1 (List.getElem?_eq_some_iff.mp hat.value).1
      (getElem?_combine hf hold hvalue)
    have hrest := ih hnodup.2 (fun y hy => hplaces y (List.mem_cons_of_mem x hy)) hnext
    refine (hfirst.append (mergeNext_advances s budget type) hrest).congr ?_
    rw [List.forall_mem_cons]

theorem depth_le_iff {record : Record} {bound : Nat} :
    depth record ≤ bound ↔ ∀ value ∈ record, valueDepth value ≤ bound := by
  induction record with
  | nil => simp [depth]
  | cons value rest ih => rw [depth, Nat.max_le, ih, List.forall_mem_cons]

/-- A record is as deep as the deepest of its values, in whatever order. -/
theorem depth_le_iff_ordered {a : Record} (ha : HasType s type a) {bound : Nat} :
    depth a ≤ bound ↔ ∀ x ∈ ordered (s.fields type) a, valueDepth x.1.2 ≤ bound := by
  rw [depth_le_iff]
  constructor
  · intro h x hx
    exact h _ (List.mem_of_getElem? (mem_ordered.mp hx).2)
  · intro h value hvalue
    obtain ⟨i, hi, hget⟩ := List.mem_iff_getElem.mp hvalue
    have hf : (s.fields type)[i]? = some _ := List.getElem?_eq_getElem (ha.length_eq ▸ hi)
    have hv : a[i]? = some value := by rw [List.getElem?_eq_getElem hi, hget]
    exact h ((_, value), i) (mem_ordered.mpr ⟨hf, hv⟩)

/-- The bytes of a record are merged into another as `combine` says, if they nest no deeper than
the budget, and come to the limit if they do. -/
theorem outcome_of_nested (hs : s.WellFormed) (hn : NestedMerges s budget) {a b : Record}
    (ha : HasType s type a) (hb : HasType s type b) (hlen : encodedLen s type b < 2 ^ 64) :
    Outcome (mergeNext s budget type) (depth b ≤ budget) a (encode s type b)
      (combine s (s.fields type) a b) := by
  have hstart : PartWay a (combine s (s.fields type) a b) (ordered (s.fields type) b) a := by
    refine ⟨fun x _ => rfl, fun i hi => ?_⟩
    -- Every field has a place, so that behind the last one there is nothing to be done.
    have hlast : (s.fields type).length ≤ i := by
      apply Nat.le_of_not_lt
      intro hlt
      have hf : (s.fields type)[i]? = some _ := List.getElem?_eq_getElem hlt
      have hv : b[i]? = some _ := List.getElem?_eq_getElem (hb.length_eq ▸ hlt)
      exact hi (List.mem_map.mpr ⟨((_, _), i), mem_ordered.mpr ⟨hf, hv⟩, rfl⟩)
    rw [List.getElem?_eq_none (by rw [ha.length_eq]; exact hlast),
      List.getElem?_eq_none (by rw [length_combine ha.length_eq hb.length_eq]; exact hlast)]
  have hfields := outcome_fields hs hn ha hb hlen (ordered_nodup (s.fields type) b)
    (fun x hx => hx) hstart
  rw [encode, inOrder_parts]
  exact hfields.congr (depth_le_iff_ordered hb)

/-! ### Messages inside messages -/

theorem nestedMerges_zero (s : Schema) : NestedMerges s 0 where
  merged _ _ _ h := absurd h (Nat.not_lt_zero _)
  tooDeep _ _ _ _ _ := rfl

theorem decode_announced {b : Record} (hlen : encodedLen s type b < 2 ^ 64) :
    Varint.decode (Varint.encode (encodedLen s type b)) = .ok ((encode s type b).length, []) := by
  rw [encode, length_inOrder_parts s (s.fields type) b hlen]
  exact Varint.decode_encode_alone hlen

/-- One level more: the message is read as on its own, with one level less. -/
theorem nestedMerges_succ (hs : s.WellFormed) (hn : NestedMerges s budget) :
    NestedMerges s (budget + 1) where
  merged {type a b} ha hb hlen hdepth tail := by
    have hrun := (outcome_of_nested hs hn ha hb hlen).run (Nat.le_of_lt_succ hdepth)
    exact (mergeNested_window (decode_announced hlen)).mpr ⟨Nat.succ_pos budget, rfl, hrun⟩
  tooDeep {type a b} ha hb hlen hdepth tail := by
    have hstop := (outcome_of_nested hs hn ha hb hlen).stop (Nat.not_le_of_lt hdepth)
    exact hstop.mergeDelimited_append (mergeNext_advances s budget type) (decode_announced hlen)
      tail

/-- Messages inside others are merged, for every budget. -/
theorem nestedMerges (hs : s.WellFormed) (budget : Nat) : NestedMerges s budget := by
  induction budget with
  | zero => exact nestedMerges_zero s
  | succ budget ih => exact nestedMerges_succ hs ih

theorem outcome_record (hs : s.WellFormed) (budget : Nat) {a b : Record} (ha : HasType s type a)
    (hb : HasType s type b) (hlen : encodedLen s type b < 2 ^ 64) :
    Outcome (mergeNext s budget type) (depth b ≤ budget) a (encode s type b)
      (combine s (s.fields type) a b) :=
  outcome_of_nested hs (nestedMerges hs budget) ha hb hlen

/-! ### Merging -/

theorem merge_encode (hs : s.WellFormed) {a b : Record} (ha : HasType s type a)
    (hb : HasType s type b) (hlen : encodedLen s type b < 2 ^ 64)
    (hdepth : depth b ≤ recursionLimit) :
    merge s type a (encode s type b) = ⟨combine s (s.fields type) a b, .ok []⟩ :=
  (Delimited.mergeWhile_zero (mergeNext_advances s recursionLimit type)).mpr
    ((outcome_record hs recursionLimit ha hb hlen).run hdepth)

theorem merge_encode_tooDeep (hs : s.WellFormed) {a b : Record} (ha : HasType s type a)
    (hb : HasType s type b) (hlen : encodedLen s type b < 2 ^ 64)
    (hdepth : recursionLimit < depth b) :
    (merge s type a (encode s type b)).rest = .error .recursionLimitReached := by
  have hstop := (outcome_record hs recursionLimit ha hb hlen).stop (Nat.not_le_of_lt hdepth)
  have hloop := hstop.mergeWhile_append (mergeNext_advances s recursionLimit type)
    (Nat.zero_le ([] : Bytes).length)
  rwa [List.append_nil] at hloop

/-- **Merging what was written of a record merges the record.** For every message type of a linked
schema, from whatever state, the result is the one that `combine` gives field by field. Required
fields play no part in it. The length of the bytes is to be a word of 64 bits. -/
theorem merge_written {files : List LoadedFile} {s : Schema} (hlink : Linking.link files = .ok s)
    (type : Nat) {a b : Record} (ha : HasType s type a) (hb : HasType s type b)
    (hlen : encodedLen s type b < 2 ^ 64) (hdepth : depth b ≤ 100) :
    merge s type a (encode s type b) = ⟨combine s (s.fields type) a b, .ok []⟩ :=
  merge_encode (Linking.wellFormed_of_link hlink) ha hb hlen hdepth

end Protobuf.Record

/-! ### The type of trees, linked -/

namespace Protobuf.Tree

/-- A declared field; where it stands in the text does not matter here. -/
def fieldDecl (label : Option Decl.FieldLabel) (type : Decl.TypeExpr) (name : String)
    (number : UInt64) : Decl.Field :=
  ⟨label, type, ⟨0, 0⟩, ⟨name, ⟨0, 0⟩⟩, ⟨false, number, ⟨0, 0⟩⟩, [], ⟨0, 0⟩⟩

def messageDecl (name : String) (fields : List Decl.Field) : Decl.Message :=
  ⟨⟨name, ⟨0, 0⟩⟩, fields, [], [], [], [], ⟨0, 0⟩⟩

def namedType (name : String) : Decl.TypeExpr :=
  .named ⟨none, ⟨⟨name, ⟨0, 0⟩⟩, []⟩⟩

/-- The fields of a node as they are declared. -/
def nodeFields : List Decl.Field :=
  [fieldDecl (some .optional) (namedType "Node") "next" 4,
    fieldDecl none (.scalar .double) "weight" 2,
    fieldDecl (some .repeated) (namedType "Node") "children" 3,
    fieldDecl (some .repeated) (.scalar .uint32) "ports" 5,
    fieldDecl none (namedType "Mark") "mark" 1]

/-- The files that declare marks and nodes. -/
def files : List LoadedFile :=
  [⟨⟨"mark.proto", none, "", ⟨.proto2, none, [], [],
      [messageDecl "Mark" [fieldDecl (some .required) (.scalar .int32) "id" 1]], []⟩⟩, false⟩,
    ⟨⟨"node.proto", none, "", ⟨.proto3, none, [⟨.plain, "mark.proto", ⟨0, 0⟩, ⟨0, 0⟩⟩], [],
      [messageDecl "Node" nodeFields], []⟩⟩, true⟩]

theorem link_files : Linking.link files = .ok schema := by
  rfl

end Protobuf.Tree

namespace Protobuf.Record

/-- The weight of the twig is zero and not written, its leaf is appended without its sign, and the
branch behind it is merged into the leaf that was there. -/
theorem merge_written_twig :
    Linking.link Tree.files = .ok Tree.schema ∧ HasType Tree.schema 1 Tree.branch ∧
      HasType Tree.schema 1 Tree.twig ∧ encodedLen Tree.schema 1 Tree.twig < 2 ^ 64 ∧
      depth Tree.twig = 2 ∧
      merge Tree.schema 1 Tree.branch (encode Tree.schema 1 Tree.twig) =
        ⟨[.message
            [.message [.absent, .scalar (.f64 0), .messages [], .scalars [], .absent],
              .scalar (.f64 0x7ff8000000000001),
              .messages
                [[.absent, .scalar (.f64 0), .messages [], .scalars [], .absent],
                  [.absent, .scalar (.f64 0), .messages [], .scalars [], .absent]],
              .scalars [.u32 1, .u32 300], .message [.scalar (.i32 (-1))]],
          .scalar (.f64 0x7ff8000000000001),
          .messages
            [Tree.leaf, Tree.leaf, [.absent, .scalar (.f64 0), .messages [], .scalars [], .absent]],
          .scalars [.u32 1, .u32 300, .u32 7], .message [.scalar (.i32 (-1))]], .ok []⟩ := by
  have hlen : encodedLen Tree.schema 1 Tree.twig < 2 ^ 64 := by decide
  refine ⟨Tree.link_files, Tree.branch_hasType, Tree.twig_hasType, hlen, rfl, ?_⟩
  exact merge_written Tree.link_files 1 Tree.branch_hasType Tree.twig_hasType hlen (by decide)

end Protobuf.Record

import Protobuf.Proofs.Record.Merging
import Protobuf.Proofs.Schema.FieldOrder

/-! Records of messages whose fields are declared in another order.

Between two schemas that differ in the order of fields only, `rearrange` takes a record of the one
to a record of the other: each value goes where its field has gone, in the record and in every
message in it. Fields are told apart by their numbers, which no two of them share, so that nothing
is lost on the way (`rearrange_rearrange`).

What is written does not tell one order of declaration from the other, since parts with different
numbers can be put in order in one way only (`inOrder_eq_of_perm`). -/
namespace Protobuf

/-! ### Schemas -/

namespace Schema.Rearranged
variable {s s' : Schema} (h : s.Rearranged s')
include h

theorem fields (type : Nat) : (s'.fields type).Perm (s.fields type) := by
  unfold Schema.fields
  cases hm' : s'.messages[type]? with
  | none =>
    have hm : s.messages[type]? = none := by
      rw [List.getElem?_eq_none_iff] at hm' ⊢
      rwa [h.messages.length_eq]
    rw [hm]
  | some m' =>
    obtain ⟨m, hm, hrearranged⟩ := exists_of_forall₂_right h.messages hm'
    rw [hm]
    exact hrearranged.fields

theorem fieldsInside (f : Field) : (s'.fieldsInside f).Perm (s.fieldsInside f) := by
  unfold Schema.fieldsInside
  split
  · exact h.fields _
  · exact .refl []

theorem wellFormed (hs : s.WellFormed) : s'.WellFormed where
  field hf := hs.field ((h.fields _).mem_iff.mp hf)
  distinct type := ((h.fields type).pairwise_iff Ne.symm).mpr (hs.distinct type)

end Schema.Rearranged

theorem Schema.WellFormed.distinctInside {s : Schema} (hs : s.WellFormed) (f : Field) :
    (s.fieldsInside f).Pairwise fun f g => f.number ≠ g.number := by
  unfold Schema.fieldsInside
  split
  · exact hs.distinct _
  · exact .nil

namespace Record

/-! ### Values of fields -/

/-- The value of the field with this number. -/
def valueOf (number : Nat) : List Field → Record → FieldValue
  | f :: others, value :: rest => if f.number = number then value else valueOf number others rest
  | _, _ => .absent

/-- The values of these fields, in the order of other ones. -/
def place (fields' fields : List Field) (record : Record) : Record :=
  fields'.map fun f => valueOf f.number fields record

mutual

/-- A value with the messages in it rearranged. -/
def rearrangeValue (s s' : Schema) (f : Field) : FieldValue → FieldValue
  | .absent => .absent
  | .scalar value => .scalar value
  | .scalars values => .scalars values
  | .message record =>
    .message (place (s'.fieldsInside f) (s.fieldsInside f)
      (rearrangeEach s s' (s.fieldsInside f) record))
  | .messages records => .messages (rearrangeAll s s' f records)

/-- The values of a record, each at its old place, with the messages in them rearranged. -/
def rearrangeEach (s s' : Schema) (fields : List Field) : List FieldValue → List FieldValue
  | [] => []
  | value :: rest =>
    match fields with
    | [] => value :: rest
    | f :: others => rearrangeValue s s' f value :: rearrangeEach s s' others rest

def rearrangeAll (s s' : Schema) (f : Field) : List (List FieldValue) → List (List FieldValue)
  | [] => []
  | record :: rest =>
    place (s'.fieldsInside f) (s.fieldsInside f)
        (rearrangeEach s s' (s.fieldsInside f) record) ::
      rearrangeAll s s' f rest

end

/-- A record of the one schema as a record of the other: each value goes where its field has gone,
in the record and in every message in it. -/
def rearrange (s s' : Schema) (type : Nat) (record : Record) : Record :=
  place (s'.fields type) (s.fields type) (rearrangeEach s s' (s.fields type) record)

section
variable {fields fields' : List Field} {record : Record} {i : Nat} {f : Field} {value : FieldValue}

theorem valueOf_of_getElem? (h : fields.Pairwise fun f g => f.number ≠ g.number)
    (hf : fields[i]? = some f) (hv : record[i]? = some value) :
    valueOf f.number fields record = value := by
  induction fields generalizing record i with
  | nil => simp at hf
  | cons g others ih =>
    cases record with
    | nil => simp at hv
    | cons first rest =>
      rw [List.pairwise_cons] at h
      cases i with
      | zero =>
        simp only [List.getElem?_cons_zero, Option.some.injEq] at hf hv
        rw [valueOf, hf, if_pos rfl, hv]
      | succ i =>
        rw [List.getElem?_cons_succ] at hf hv
        rw [valueOf, if_neg (h.1 f (List.mem_of_getElem? hf)), ih h.2 hf hv]

theorem getElem?_place (h : fields.Pairwise fun f g => f.number ≠ g.number)
    (hf : fields[i]? = some f) (hv : record[i]? = some value) {j : Nat}
    (hj : fields'[j]? = some f) : (place fields' fields record)[j]? = some value := by
  rw [place, List.getElem?_map, hj, Option.map_some, valueOf_of_getElem? h hf hv]

theorem place_self (h : fields.Pairwise fun f g => f.number ≠ g.number)
    (hlen : record.length = fields.length) : place fields fields record = record := by
  apply List.ext_getElem?
  intro i
  cases hf : fields[i]? with
  | none => simp [place, List.getElem?_eq_none_iff.mp hf, hlen]
  | some f =>
    have hi := (List.getElem?_eq_some_iff.mp hf).1
    have hv : record[i]? = some _ := List.getElem?_eq_getElem (hlen ▸ hi)
    rw [getElem?_place h hf hv hf, hv]

/-- A field goes together with its value. -/
theorem zip_place_perm (h : fields.Pairwise fun f g => f.number ≠ g.number)
    (hlen : record.length = fields.length) (hperm : fields'.Perm fields) :
    (fields'.zip (place fields' fields record)).Perm (fields.zip record) := by
  have hzip (l : List Field) : l.zip (place l fields record) =
      l.map fun f => (f, valueOf f.number fields record) := by
    rw [place, ← List.zip_map', List.map_id']
  have hself : fields.zip record = fields.map fun f => (f, valueOf f.number fields record) := by
    rw [← hzip, place_self h hlen]
  rw [hzip, hself]
  exact hperm.map _

end

/-! ### Values at any depth, one message at a time -/

/-- What a value is like if the values in its messages are. -/
def Hereditary (s : Schema) (P : Field → FieldValue → Prop) : Prop :=
  ∀ ⦃f : Field⦄ ⦃value : FieldValue⦄, FitsField s f value →
    (∀ record ∈ value.records, Fits s (s.fieldsInside f) record ∧
      ∀ g v, (g, v) ∈ (s.fieldsInside f).zip record → P g v) → P f value

section
variable {s : Schema} {P : Field → FieldValue → Prop}

mutual

/-- It holds of every value that a field can have. -/
theorem Hereditary.value (hP : Hereditary s P) (f : Field) :
    (value : FieldValue) → FitsField s f value → P f value
  | .absent, h => hP h (by simp [FieldValue.records])
  | .scalar value, h => hP h (by simp [FieldValue.records])
  | .scalars values, h => hP h (by simp [FieldValue.records])
  | .message record, h => by
    refine hP h fun inner hinner => ?_
    rw [List.mem_singleton.mp hinner]
    exact ⟨h.2.2, hP.fields (s.fieldsInside f) record h.2.2⟩
  | .messages records, h => hP h (hP.each f records h.2.2)

theorem Hereditary.fields (hP : Hereditary s P) (fields : List Field) :
    (record : List FieldValue) → Fits s fields record →
      ∀ f value, (f, value) ∈ fields.zip record → P f value
  | [], _ => by simp
  | first :: rest, h => by
    cases fields with
    | nil => exact h.elim
    | cons g others =>
      have hboth : FitsField s g first ∧ Fits s others rest := h
      intro f value hmem
      rcases List.mem_cons.mp hmem with heq | hmem
      · obtain ⟨hf, hvalue⟩ := Prod.mk.inj heq
        rw [hf, hvalue]
        exact hP.value g first hboth.1
      · exact hP.fields others rest hboth.2 f value hmem

theorem Hereditary.each (hP : Hereditary s P) (f : Field) :
    (records : List (List FieldValue)) → FitEach s f records →
      ∀ record ∈ records, Fits s (s.fieldsInside f) record ∧
        ∀ g v, (g, v) ∈ (s.fieldsInside f).zip record → P g v
  | [], _ => by simp
  | first :: rest, h => by
    have hboth : Fits s (s.fieldsInside f) first ∧ FitEach s f rest := h
    intro record hmem
    rcases List.mem_cons.mp hmem with heq | hmem
    · rw [heq]
      exact ⟨hboth.1, hP.fields (s.fieldsInside f) first hboth.1⟩
    · exact hP.each f rest hboth.2 record hmem

end

end

/-! ### Rearranged records -/

section
variable {s s' : Schema} {fields fields' : List Field} {record : Record} {i j type index : Nat}
  {f : Field} {value : FieldValue}

theorem rearrangeAll_eq_map (f : Field) (records : List Record) :
    rearrangeAll s s' f records = records.map fun record =>
      place (s'.fieldsInside f) (s.fieldsInside f)
        (rearrangeEach s s' (s.fieldsInside f) record) := by
  induction records with
  | nil => rw [rearrangeAll, List.map_nil]
  | cons record rest ih => rw [rearrangeAll, ih, List.map_cons]

@[simp] theorem length_rearrangeEach :
    (rearrangeEach s s' fields record).length = record.length := by
  induction record generalizing fields with
  | nil => rw [rearrangeEach]
  | cons value rest ih =>
    cases fields with
    | nil => rw [rearrangeEach]
    | cons f others => rw [rearrangeEach, List.length_cons, List.length_cons, ih]

theorem zip_rearrangeEach : fields.zip (rearrangeEach s s' fields record) =
    (fields.zip record).map fun x => (x.1, rearrangeValue s s' x.1 x.2) := by
  induction record generalizing fields with
  | nil => simp [rearrangeEach]
  | cons value rest ih =>
    cases fields with
    | nil => rfl
    | cons f others =>
      rw [rearrangeEach, List.zip_cons_cons, List.zip_cons_cons, List.map_cons, ih]

/-- The fields with their values, in the one order and in the other. -/
theorem zip_rearrange_perm (s s' : Schema) (h : fields.Pairwise fun f g => f.number ≠ g.number)
    (hlen : record.length = fields.length) (hperm : fields'.Perm fields) :
    (fields'.zip (place fields' fields (rearrangeEach s s' fields record))).Perm
      ((fields.zip record).map fun x => (x.1, rearrangeValue s s' x.1 x.2)) := by
  rw [← zip_rearrangeEach]
  exact zip_place_perm h (by rw [length_rearrangeEach, hlen]) hperm

theorem getElem?_rearrangeEach (s s' : Schema) (hf : fields[i]? = some f)
    (hv : record[i]? = some value) :
    (rearrangeEach s s' fields record)[i]? = some (rearrangeValue s s' f value) := by
  have hold : (fields.zip record)[i]? = some (f, value) := List.getElem?_zip_eq_some.mpr ⟨hf, hv⟩
  have hnew : (fields.zip (rearrangeEach s s' fields record))[i]? =
      some (f, rearrangeValue s s' f value) := by
    rw [zip_rearrangeEach, List.getElem?_map, hold, Option.map_some]
  exact (List.getElem?_zip_eq_some.mp hnew).2

end

/-! ### There and back -/

theorem rearrange_back {s s' : Schema} {fields fields' : List Field} {record : Record}
    (h : fields.Pairwise fun f g => f.number ≠ g.number) (hlen : record.length = fields.length)
    (hperm : fields'.Perm fields)
    (hvalues : ∀ f value, (f, value) ∈ fields.zip record →
      rearrangeValue s' s f (rearrangeValue s s' f value) = value) :
    place fields fields' (rearrangeEach s' s fields'
      (place fields' fields (rearrangeEach s s' fields record))) = record := by
  have h' : fields'.Pairwise fun f g => f.number ≠ g.number := (hperm.pairwise_iff Ne.symm).mpr h
  apply List.ext_getElem?
  intro i
  cases hf : fields[i]? with
  | none => simp [place, List.getElem?_eq_none_iff.mp hf, hlen]
  | some f =>
    have hv : record[i]? = some _ :=
      List.getElem?_eq_getElem (hlen ▸ (List.getElem?_eq_some_iff.mp hf).1)
    obtain ⟨j, hj⟩ := List.getElem?_of_mem (hperm.mem_iff.mpr (List.mem_of_getElem? hf))
    have hthere := getElem?_place h hf (getElem?_rearrangeEach s s' hf hv) hj
    have hback := getElem?_place h' hj (getElem?_rearrangeEach s' s hj hthere) hf
    rw [hback, hv, hvalues f _ (List.mem_of_getElem? (List.getElem?_zip_eq_some.mpr ⟨hf, hv⟩))]

theorem rearrangeValue_back {s s' : Schema} (hs : s.WellFormed) (h : s.Rearranged s') :
    Hereditary s fun f value => rearrangeValue s' s f (rearrangeValue s s' f value) = value := by
  intro f value hfits hinside
  have hback (record : Record) (hrecord : record ∈ value.records) :=
    rearrange_back (hs.distinctInside f) (hinside record hrecord).1.length_eq (h.fieldsInside f)
      (hinside record hrecord).2
  cases value with
  | absent => rfl
  | scalar value => rfl
  | scalars values => rfl
  | message record =>
    rw [rearrangeValue, rearrangeValue, hback record (List.mem_singleton_self record)]
  | messages records =>
    rw [rearrangeValue, rearrangeValue, rearrangeAll_eq_map, rearrangeAll_eq_map, List.map_map]
    exact congrArg _ ((List.map_congr_left hback).trans (List.map_id' records))

/-- Rearranged there and back, a record is what it was. -/
theorem rearrange_rearrange {s s' : Schema} (hs : s.WellFormed) (h : s.Rearranged s') {type : Nat}
    {m : Record} (hm : HasType s type m) :
    rearrange s' s type (rearrange s s' type m) = m :=
  rearrange_back (hs.distinct type) hm.length_eq (h.fields type)
    ((rearrangeValue_back hs h).fields (s.fields type) m hm)

/-! ### Types -/

theorem fits_iff {s : Schema} {fields : List Field} {record : Record} :
    Fits s fields record ↔ record.length = fields.length ∧
      ∀ f value, (f, value) ∈ fields.zip record → FitsField s f value := by
  constructor
  · intro h
    refine ⟨h.length_eq, fun f value hmem => ?_⟩
    obtain ⟨i, hi⟩ := List.getElem?_of_mem hmem
    exact h.field (List.getElem?_zip_eq_some.mp hi).1 (List.getElem?_zip_eq_some.mp hi).2
  · intro ⟨hlen, h⟩
    induction record generalizing fields with
    | nil => exact List.length_eq_zero_iff.mp hlen.symm
    | cons value rest ih =>
      cases fields with
      | nil => cases hlen
      | cons f others =>
        refine ⟨h f value (List.mem_cons_self ..), ih (Nat.succ.inj hlen) ?_⟩
        exact fun g v hmem => h g v (List.mem_cons_of_mem _ hmem)

theorem fitEach_iff {s : Schema} {f : Field} {records : List Record} :
    FitEach s f records ↔ ∀ record ∈ records, Fits s (s.fieldsInside f) record := by
  induction records with
  | nil => simp [FitEach]
  | cons record rest ih => rw [FitEach, ih, List.forall_mem_cons]

section
variable {s s' : Schema} {fields fields' : List Field} {record : Record}

theorem rearrange_fits (h : fields.Pairwise fun f g => f.number ≠ g.number)
    (hlen : record.length = fields.length) (hperm : fields'.Perm fields)
    (hvalues : ∀ f value, (f, value) ∈ fields.zip record →
      FitsField s' f (rearrangeValue s s' f value)) :
    Fits s' fields' (place fields' fields (rearrangeEach s s' fields record)) := by
  refine fits_iff.mpr ⟨by rw [place, List.length_map], fun f value hmem => ?_⟩
  have hmem' := (zip_rearrange_perm s s' h hlen hperm).mem_iff.mp hmem
  obtain ⟨⟨g, old⟩, hold, heq⟩ := List.mem_map.mp hmem'
  obtain ⟨rfl, rfl⟩ := Prod.mk.inj heq
  exact hvalues g old hold

theorem rearrangeValue_fits (hs : s.WellFormed) (h : s.Rearranged s') :
    Hereditary s fun f value => FitsField s' f (rearrangeValue s s' f value) := by
  intro f value hfits hinside
  have hrecords (record : Record) (hrecord : record ∈ value.records) :=
    rearrange_fits (hs.distinctInside f) (hinside record hrecord).1.length_eq (h.fieldsInside f)
      (hinside record hrecord).2
  cases value with
  | absent => exact hfits
  | scalar value => exact hfits
  | scalars values => exact hfits
  | message record =>
    exact ⟨hfits.1, hfits.2.1, hrecords record (List.mem_singleton_self record)⟩
  | messages records =>
    refine ⟨hfits.1, hfits.2.1, fitEach_iff.mpr ?_⟩
    rw [rearrangeAll_eq_map, List.forall_mem_map]
    exact hrecords

theorem rearrange_hasType (hs : s.WellFormed) (h : s.Rearranged s') {type : Nat} {m : Record}
    (hm : HasType s type m) : HasType s' type (rearrange s s' type m) :=
  rearrange_fits (hs.distinct type) hm.length_eq (h.fields type)
    ((rearrangeValue_fits hs h).fields (s.fields type) m hm)

/-! ### What is written -/

theorem zip_distinct (h : fields.Pairwise fun f g => f.number ≠ g.number)
    (hlen : record.length = fields.length) :
    (fields.zip record).Pairwise fun a b => a.1.number ≠ b.1.number := by
  have hfst : (fields.zip record).map Prod.fst = fields := List.map_fst_zip (Nat.le_of_eq hlen.symm)
  rwa [← hfst, List.pairwise_map] at h

theorem pairwise_mergeSort_le {α : Type} (key : α → Nat) (l : List α) :
    (l.mergeSort fun a b => key a ≤ key b).Pairwise fun a b => key a ≤ key b := by
  refine (List.pairwise_mergeSort ?_ ?_ l).imp of_decide_eq_true
  · intro a b c hab hbc
    exact decide_eq_true (Nat.le_trans (of_decide_eq_true hab) (of_decide_eq_true hbc))
  · intro a b
    simpa using Nat.le_total (key a) (key b)

/-- Parts with different numbers can be put in order in one way only. -/
theorem inOrder_eq_of_perm {parts parts' : List (Nat × Bytes)} (h : parts'.Perm parts)
    (hnodup : (parts.map (·.1)).Nodup) : inOrder parts' = inOrder parts := by
  have hperm : (parts'.mergeSort fun a b => a.1 ≤ b.1).Perm
      (parts.mergeSort fun a b => a.1 ≤ b.1) :=
    (List.mergeSort_perm ..).trans (h.trans (List.mergeSort_perm ..).symm)
  rw [inOrder, inOrder, hperm.eq_of_pairwise ?_ (pairwise_mergeSort_le _ parts')
    (pairwise_mergeSort_le _ parts)]
  intro a b ha hb hab hba
  have ha' := h.mem_iff.mp ((List.mergeSort_perm ..).mem_iff.mp ha)
  have hb' := (List.mergeSort_perm ..).mem_iff.mp hb
  exact List.inj_on_of_nodup_map hnodup ha' hb' (Nat.le_antisymm hab hba)

theorem lenOf_eq (s : Schema) (fields : List Field) (record : Record) :
    lenOf s fields record = ((fields.zip record).map fun x => fieldLen s x.1 x.2).sum := by
  induction record generalizing fields with
  | nil => simp [lenOf]
  | cons value rest ih =>
    cases fields with
    | nil => rfl
    | cons f others => rw [lenOf, ih, List.zip_cons_cons, List.map_cons, List.sum_cons]

/-- A value takes as many bytes as a rearranged one, and the same. -/
def WrittenAlike (s s' : Schema) (f : Field) (value : FieldValue) : Prop :=
  fieldLen s' f (rearrangeValue s s' f value) = fieldLen s f value ∧
    encodeField s' f (rearrangeValue s s' f value) = encodeField s f value

theorem rearrange_written (h : fields.Pairwise fun f g => f.number ≠ g.number)
    (hlen : record.length = fields.length) (hperm : fields'.Perm fields)
    (hvalues : ∀ f value, (f, value) ∈ fields.zip record → WrittenAlike s s' f value) :
    lenOf s' fields' (place fields' fields (rearrangeEach s s' fields record)) =
        lenOf s fields record ∧
      inOrder (parts s' fields' (place fields' fields (rearrangeEach s s' fields record))) =
        inOrder (parts s fields record) := by
  have hzip := zip_rearrange_perm s s' h hlen hperm
  constructor
  · rw [lenOf_eq, lenOf_eq, (hzip.map _).sum_nat, List.map_map]
    exact congrArg _ (List.map_congr_left fun x hx => (hvalues x.1 x.2 hx).1)
  · have hparts : (parts s' fields' (place fields' fields
        (rearrangeEach s s' fields record))).Perm (parts s fields record) := by
      rw [parts_eq, parts_eq]
      refine (hzip.map _).trans (.of_eq ?_)
      rw [List.map_map]
      exact List.map_congr_left fun x hx => congrArg _ (hvalues x.1 x.2 hx).2
    refine inOrder_eq_of_perm hparts ?_
    rw [parts_eq, List.map_map]
    exact List.pairwise_map.mpr (zip_distinct h hlen)

theorem rearrangeValue_written (hs : s.WellFormed) (h : s.Rearranged s') :
    Hereditary s (WrittenAlike s s') := by
  intro f value hfits hinside
  have hrecords (record : Record) (hrecord : record ∈ value.records) :=
    rearrange_written (hs.distinctInside f) (hinside record hrecord).1.length_eq
      (h.fieldsInside f) (hinside record hrecord).2
  cases value with
  | absent => exact ⟨rfl, rfl⟩
  | scalar value => exact ⟨rfl, rfl⟩
  | scalars values => exact ⟨rfl, rfl⟩
  | message record =>
    obtain ⟨hlen, hbytes⟩ := hrecords record (List.mem_singleton_self record)
    constructor
    · rw [rearrangeValue, fieldLen, fieldLen, hlen]
    · rw [rearrangeValue, encodeField, encodeField, hlen, hbytes]
  | messages records =>
    clear hfits hinside
    unfold WrittenAlike
    rw [rearrangeValue, fieldLen, fieldLen, encodeField, encodeField]
    induction records with
    | nil => exact ⟨rfl, rfl⟩
    | cons record rest ih =>
      obtain ⟨hlen, hbytes⟩ := hrecords record (List.mem_cons_self ..)
      obtain ⟨hlens, hrest⟩ := ih fun r hr => hrecords r (List.mem_cons_of_mem record hr)
      constructor
      · rw [rearrangeAll, lenOfAll, lenOfAll, hlen, hlens]
      · rw [rearrangeAll, encodeAll, encodeAll, hlen, hbytes, hrest]

/-- The length and the bytes of a message do not depend on the order of its fields. -/
theorem encode_rearrange (hs : s.WellFormed) (h : s.Rearranged s') {type : Nat} {m : Record}
    (hm : HasType s type m) :
    encodedLen s' type (rearrange s s' type m) = encodedLen s type m ∧
      encode s' type (rearrange s s' type m) = encode s type m :=
  rearrange_written (hs.distinct type) hm.length_eq (h.fields type)
    ((rearrangeValue_written hs h).fields (s.fields type) m hm)

/-- A message is written field by field, in ascending order of their numbers. -/
theorem encode_ascending (hs : s.WellFormed) {type : Nat} {m : Record} (hm : HasType s type m) :
    ∃ written : List (Field × FieldValue), written.Perm ((s.fields type).zip m) ∧
      written.Pairwise (fun a b => a.1.number < b.1.number) ∧
      encode s type m = written.flatMap fun x => encodeField s x.1 x.2 := by
  let written := ((s.fields type).zip m).mergeSort fun a b => a.1.number ≤ b.1.number
  have hperm : written.Perm ((s.fields type).zip m) := List.mergeSort_perm ..
  refine ⟨written, hperm, ?_, ?_⟩
  · have hzip := zip_distinct (hs.distinct type) hm.length_eq
    have hdistinct := (hperm.pairwise_iff Ne.symm).mpr hzip
    have hboth := (pairwise_mergeSort_le (·.1.number) ((s.fields type).zip m)).and hdistinct
    exact hboth.imp fun h => Nat.lt_of_le_of_ne h.1 h.2
  · rw [encode, inOrder, parts_eq,
      ← List.map_mergeSort (r := fun a b => a.1.number ≤ b.1.number), List.flatMap_map]
    · intro a _ b _
      rfl

end

end Record
end Protobuf

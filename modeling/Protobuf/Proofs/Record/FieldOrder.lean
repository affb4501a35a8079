import Protobuf.Proofs.Record.Reading
import Protobuf.Proofs.Record.Rearranged

/-! The order of declaration does not matter on the wire.

Reading looks a field up by its number and sets the value at its place. With the fields in another
order the number is found at another place, and the same value is set there
(`mergeFieldWith_rearrange`). So the two readers go in step (`Delimited.InStep`), through every
field and every message inside another, and end alike: with the same bytes left or the same failure,
and with records that are the same up to the order. -/
namespace Protobuf

/-! ### Readers in step -/

namespace Delimited
variable {σ τ : Type} {step : σ → Bytes → Merged σ} {step' : τ → Bytes → Merged τ} {g : σ → τ}
  {inv : σ → Prop} {a : σ}

/-- One reader does what the other does, seen through a map of the states. It may rely on an
invariant of the states that the other comes to. -/
structure InStep (g : σ → τ) (inv : σ → Prop) (step : σ → Bytes → Merged σ)
    (step' : τ → Bytes → Merged τ) : Prop where
  alike : ∀ {a : σ}, inv a → ∀ bytes, step' (g a) bytes = (step a bytes).map g
  keeps : ∀ {a b : σ} {bytes rest : Bytes}, inv a → step a bytes = ⟨b, .ok rest⟩ → inv b

theorem InStep.mergeWhile (h : InStep g inv step step') (limit : Nat) (ha : inv a)
    (bytes : Bytes) :
    mergeWhile step' limit (g a) bytes = (mergeWhile step limit a bytes).map g := by
  fun_induction Delimited.mergeWhile step limit a bytes with
  | case1 a bytes hlimit b e hstep =>
    rw [Delimited.mergeWhile, if_pos hlimit, h.alike ha, hstep]
    rfl
  | case2 a bytes hlimit b rest hstep hshort ih =>
    rw [Delimited.mergeWhile, if_pos hlimit, h.alike ha, hstep]
    show (if rest.length < bytes.length then _ else _) = _
    rw [if_pos hshort]
    exact ih (h.keeps ha hstep)
  | case3 a bytes hlimit b rest hstep hshort =>
    rw [Delimited.mergeWhile, if_pos hlimit, h.alike ha, hstep]
    show (if rest.length < bytes.length then _ else _) = _
    rw [if_neg hshort]
    rfl
  | case4 a bytes hlimit =>
    rw [Delimited.mergeWhile, if_neg hlimit]
    rfl

theorem InStep.mergeDelimited (h : InStep g inv step step') (ha : inv a) (bytes : Bytes) :
    mergeDelimited step' (g a) bytes = (mergeDelimited step a bytes).map g := by
  unfold Delimited.mergeDelimited
  cases decodeLen bytes with
  | error e => rfl
  | ok announced =>
    obtain ⟨len, rest⟩ := announced
    dsimp only
    rw [h.mergeWhile _ ha]
    obtain ⟨b, left⟩ := Delimited.mergeWhile step (rest.length - len) a rest
    cases left with
    | error e => rfl
    | ok left =>
      dsimp only [Merged.map]
      split <;> rfl

end Delimited

namespace Record

/-! ### Records stay values of their type -/

section
variable {s : Schema} {nested : Nested} {budget type : Nat} {wireType : WireType}
  {bytes rest : Bytes} {m m' : Record}

/-- What the reader of messages inside others owes here. -/
def NestedTyped (s : Schema) (nested : Nested) : Prop :=
  ∀ ⦃type : Nat⦄ ⦃old new : Record⦄ ⦃bytes rest : Bytes⦄,
    HasType s type old → nested type old bytes = ⟨new, .ok rest⟩ → HasType s type new

theorem mergeValue_fits (hs : s.WellFormed) (hn : NestedTyped s nested) {f : Field}
    {old new : FieldValue} (hold : FitsField s f old)
    (h : mergeValue s nested f wireType old bytes = ⟨new, .ok rest⟩) : FitsField s f new := by
  rcases mergeValue_cases h with ⟨index, hindex, hmessage⟩ | ⟨htype, hscalar⟩
  · have htype : f.type.isMessage = true := by rw [hindex]; rfl
    rcases hmessage with ⟨hcard, happend⟩ | ⟨hcard, hmerge⟩
    · obtain ⟨-, record, hnested, rfl⟩ := appendMessage_eq_ok_iff.mp happend
      rw [eq_messages hcard htype hold] at hold
      refine ⟨hcard, htype, hold.2.2.append ?_⟩
      rw [fieldsInside_eq hindex]
      exact hn (unset_hasType hs index) hnested
    · obtain ⟨-, record, hnested, rfl⟩ := mergeMessage_eq_ok_iff.mp hmerge
      refine ⟨hcard, htype, ?_⟩
      rw [fieldsInside_eq hindex]
      exact hn (toRecord_hasType hs hindex hold) hnested
  · -- Scalars nest no messages, so that depth and mass may be as large as they are.
    have hreading : ReadingField s f (valueDepth old) (valueMass s f old + bytes.length) old
        bytes := ⟨hold, Nat.le_refl _, Nat.le_refl _⟩
    rcases hscalar with ⟨hcard, values, rfl, hvalues⟩ | ⟨hcard, value, rfl, hvalue⟩
    · rw [eq_scalars hcard htype hold] at hreading
      exact (mergeRepeated_reading hcard htype hvalues hreading).fits
    · exact (merge_reading hcard htype hvalue hreading).fits

theorem mergeNextWith_hasType (hs : s.WellFormed) (hn : NestedTyped s nested)
    (hm : HasType s type m) (h : mergeNextWith s nested budget type m bytes = ⟨m', .ok rest⟩) :
    HasType s type m' := by
  obtain ⟨⟨number, wireType⟩, payload, -, hfield⟩ := mergeNextWith_eq_ok_iff.mp h
  unfold mergeFieldWith at hfield
  split at hfield
  · rw [← (Merged.mk.inj hfield).1]
    exact hm
  · split at hfield
    · rename_i f value hf hvalue
      obtain ⟨new, hnew, rfl⟩ := Merged.map_eq_ok_iff.mp hfield
      exact hm.set hf (mergeValue_fits hs hn (hm.field hf hvalue) hnew)
    · rw [← (Merged.mk.inj hfield).1]
      exact hm

theorem nestedTyped (hs : s.WellFormed) (budget : Nat) : NestedTyped s (mergeNested s budget) := by
  induction budget with
  | zero =>
    intro type old new bytes rest hold h
    simp [mergeNested] at h
  | succ budget ih =>
    intro type old new bytes rest hold h
    have hadvances := mergeNext_advances s budget type
    obtain ⟨p, window, rfl, hp, -⟩ := Delimited.exists_window_of_mergeDelimited hadvances h
    have hrun := ((Delimited.mergeDelimited_window hadvances hp).mp h).2
    exact hrun.invariant (fun hstep hm => mergeNextWith_hasType hs ih hm hstep) hold

end

/-! ### Fields in another order -/

section
variable {s s' : Schema} {nested nested' : Nested} {budget type i j index : Nat} {f : Field}
  {value : FieldValue} {m : Record}

/-- The value of a field is found where the field is. -/
theorem getElem?_rearrange (hs : s.WellFormed) (hat : FieldAt s type m i f value)
    (hj : (s'.fields type)[j]? = some f) :
    (rearrange s s' type m)[j]? = some (rearrangeValue s s' f value) :=
  getElem?_place (hs.distinct type) hat.field (getElem?_rearrangeEach s s' hat.field hat.value) hj

theorem length_rearrange (s s' : Schema) (type : Nat) (m : Record) :
    (rearrange s s' type m).length = (s'.fields type).length := by
  rw [rearrange, place, List.length_map]

/-- A rearranged record is the one in which each field has its rearranged value. -/
theorem rearrange_eq_of_fields (hs : s.WellFormed) (h : s.Rearranged s')
    (hlen : m.length = (s.fields type).length) {m' : Record}
    (hlen' : m'.length = (s'.fields type).length)
    (hsame : ∀ {i j : Nat} {f : Field} {value : FieldValue}, FieldAt s type m i f value →
      (s'.fields type)[j]? = some f → m'[j]? = some (rearrangeValue s s' f value)) :
    rearrange s s' type m = m' := by
  apply List.ext_getElem?
  intro j
  cases hj : (s'.fields type)[j]? with
  | none =>
    have hle := List.getElem?_eq_none_iff.mp hj
    rw [List.getElem?_eq_none (by rw [length_rearrange]; exact hle),
      List.getElem?_eq_none (by rw [hlen']; exact hle)]
  | some f =>
    have hmem := (h.fields type).mem_iff.mp (List.mem_of_getElem? hj)
    obtain ⟨i, hi⟩ := List.getElem?_of_mem hmem
    have hv : m[i]? = some _ :=
      List.getElem?_eq_getElem (hlen ▸ (List.getElem?_eq_some_iff.mp hi).1)
    rw [getElem?_rearrange hs ⟨hi, hv⟩ hj, hsame ⟨hi, hv⟩ hj]

/-- A field is at one place. -/
theorem getElem?_fields_inj (hs : s.WellFormed) (hi : (s.fields type)[i]? = some f)
    (hj : (s.fields type)[j]? = some f) : i = j :=
  Option.some.inj ((findIdx?_number (hs.distinct type) hi).symm.trans
    (findIdx?_number (hs.distinct type) hj))

/-- A field is set at its new place. -/
theorem rearrange_set (hs : s.WellFormed) (h : s.Rearranged s')
    (hlen : m.length = (s.fields type).length) (hi : (s.fields type)[i]? = some f)
    (hj : (s'.fields type)[j]? = some f) (new : FieldValue) :
    rearrange s s' type (m.set i new) =
      (rearrange s s' type m).set j (rearrangeValue s s' f new) := by
  refine rearrange_eq_of_fields hs h (by rw [List.length_set, hlen])
    (by rw [List.length_set, length_rearrange]) ?_
  intro i' j' g value hat hj'
  have hvalue := hat.value
  by_cases hsame : g = f
  · rw [hsame] at hj'
    obtain rfl : i = i' := getElem?_fields_inj hs hi (hsame ▸ hat.field)
    obtain rfl : j = j' := getElem?_fields_inj (h.wellFormed hs) hj hj'
    rw [List.getElem?_set_self (hlen ▸ (List.getElem?_eq_some_iff.mp hi).1),
      Option.some.injEq] at hvalue
    rw [List.getElem?_set_self (by
      rw [length_rearrange]
      exact (List.getElem?_eq_some_iff.mp hj).1), hvalue, hsame]
  · have hi' : i ≠ i' := by
      rintro rfl
      exact hsame (Option.some.inj (hat.field.symm.trans hi))
    have hj'' : j ≠ j' := by
      rintro rfl
      exact hsame (Option.some.inj (hj'.symm.trans hj))
    rw [List.getElem?_set_ne hi'] at hvalue
    rw [List.getElem?_set_ne hj'']
    exact getElem?_rearrange hs ⟨hat.field, hvalue⟩ hj'

theorem rearrangeValue_unset (s s' : Schema) (f : Field) :
    rearrangeValue s s' f f.unset = f.unset := by
  unfold Field.unset
  cases f.cardinality with
  | repeated => cases f.type.isMessage <;> rfl
  | _ => rfl

theorem rearrange_unset (hs : s.WellFormed) (h : s.Rearranged s') (type : Nat) :
    rearrange s s' type (s.unsetRecord type) = s'.unsetRecord type := by
  unfold Schema.unsetRecord
  refine rearrange_eq_of_fields hs h (List.length_map ..) (List.length_map ..) ?_
  intro i j f value hat hj
  have hvalue := hat.value
  rw [List.getElem?_map, hat.field, Option.map_some, Option.some.injEq] at hvalue
  rw [List.getElem?_map, hj, Option.map_some, ← hvalue, rearrangeValue_unset]

/-! ### Messages inside others -/

theorem rearrangeValue_message (htype : f.type = .message index) (record : Record) :
    rearrangeValue s s' f (.message record) = .message (rearrange s s' index record) := by
  rw [rearrangeValue, fieldsInside_eq htype, fieldsInside_eq htype, rearrange]

theorem rearrangeValue_messages (htype : f.type = .message index) (records : List Record) :
    rearrangeValue s s' f (.messages records) =
      .messages (records.map (rearrange s s' index)) := by
  rw [rearrangeValue, rearrangeAll_eq_map, fieldsInside_eq htype, fieldsInside_eq htype]
  rfl

theorem toRecord_rearrangeValue (hs : s.WellFormed) (h : s.Rearranged s')
    (htype : f.type = .message index) (value : FieldValue) :
    (rearrangeValue s s' f value).toRecord (s'.unsetRecord index) =
      rearrange s s' index (value.toRecord (s.unsetRecord index)) := by
  cases value with
  | message record =>
    rw [rearrangeValue_message htype]
    rfl
  | _ => exact (rearrange_unset hs h index).symm

theorem toRecords_rearrangeValue (htype : f.type = .message index) (value : FieldValue) :
    (rearrangeValue s s' f value).toRecords = value.toRecords.map (rearrange s s' index) := by
  cases value with
  | messages records =>
    rw [rearrangeValue_messages htype]
    rfl
  | _ => rfl

/-- What the readers of messages inside others owe: they end alike. -/
def NestedInStep (s s' : Schema) (nested nested' : Nested) : Prop :=
  ∀ ⦃type : Nat⦄ ⦃m : Record⦄, HasType s type m → ∀ bytes,
    nested' type (rearrange s s' type m) bytes = (nested type m bytes).map (rearrange s s' type)

theorem mergeMessage_rearrange (hs : s.WellFormed) (h : s.Rearranged s')
    (hn : NestedInStep s s' nested nested') (htype : f.type = .message index)
    (hfits : FitsField s f value) (wireType : WireType) (bytes : Bytes) :
    mergeMessage s' nested' index wireType (rearrangeValue s s' f value) bytes =
      (mergeMessage s nested index wireType value bytes).map (rearrangeValue s s' f) := by
  unfold mergeMessage
  dsimp only
  rw [toRecord_rearrangeValue hs h htype]
  cases checkWireType .lengthDelimited wireType with
  | error e =>
    dsimp only [Merged.map]
    rw [rearrangeValue_message htype]
  | ok _ =>
    dsimp only
    rw [hn (toRecord_hasType hs htype hfits)]
    dsimp only [Merged.map]
    rw [rearrangeValue_message htype]

theorem appendMessage_rearrange (hs : s.WellFormed) (h : s.Rearranged s')
    (hn : NestedInStep s s' nested nested') (htype : f.type = .message index)
    (wireType : WireType) (bytes : Bytes) :
    appendMessage s' nested' index wireType (rearrangeValue s s' f value) bytes =
      (appendMessage s nested index wireType value bytes).map (rearrangeValue s s' f) := by
  unfold appendMessage
  rw [toRecords_rearrangeValue htype, ← rearrange_unset hs h, hn (unset_hasType hs index)]
  cases checkWireType .lengthDelimited wireType with
  | error e =>
    dsimp only [Merged.map]
    rw [rearrangeValue_messages htype]
  | ok _ =>
    obtain ⟨record, result⟩ := nested index (s.unsetRecord index) bytes
    cases result with
    | error e =>
      dsimp only [Merged.map]
      rw [rearrangeValue_messages htype]
    | ok rest =>
      dsimp only [Merged.map]
      rw [rearrangeValue_messages htype, List.map_append, List.map_singleton]

theorem mergeValue_rearrange (hs : s.WellFormed) (h : s.Rearranged s')
    (hn : NestedInStep s s' nested nested') (hfits : FitsField s f value) (wireType : WireType)
    (bytes : Bytes) :
    mergeValue s' nested' f wireType (rearrangeValue s s' f value) bytes =
      (mergeValue s nested f wireType value bytes).map (rearrangeValue s s' f) := by
  cases htype : f.type.isMessage with
  | true =>
    obtain ⟨index, hindex⟩ := exists_message_type htype
    unfold mergeValue
    simp only [hindex]
    split
    · exact appendMessage_rearrange hs h hn hindex wireType bytes
    · exact mergeMessage_rearrange hs h hn hindex hfits wireType bytes
  | false =>
    have hscalars : (rearrangeValue s s' f value).toScalars = value.toScalars := by
      cases value <;> rfl
    have hscalar (zero : ScalarValue) :
        (rearrangeValue s s' f value).toScalar zero = value.toScalar zero := by
      cases value <;> rfl
    rw [mergeValue_scalar htype, mergeValue_scalar htype, hscalars, hscalar]
    split <;> rfl

/-- The field with a number is found at another place, and the same is done there. -/
theorem mergeFieldWith_rearrange (hs : s.WellFormed) (h : s.Rearranged s')
    (hn : NestedInStep s s' nested nested') (hm : HasType s type m) (number : Nat)
    (wireType : WireType) (bytes : Bytes) :
    mergeFieldWith s' nested' budget type (rearrange s s' type m) number wireType bytes =
      (mergeFieldWith s nested budget type m number wireType bytes).map
        (rearrange s s' type) := by
  unfold mergeFieldWith
  cases hfind : (s.fields type).findIdx? (·.number == number) with
  | none =>
    have hnone : (s'.fields type).findIdx? (·.number == number) = none := by
      rw [List.findIdx?_eq_none_iff] at hfind ⊢
      exact fun f hf => hfind f ((h.fields type).mem_iff.mp hf)
    rw [hnone]
    rfl
  | some i =>
    obtain ⟨hi, hnumber, -⟩ := List.findIdx?_eq_some_iff_getElem.mp hfind
    obtain ⟨f, hf⟩ : ∃ f, (s.fields type)[i]? = some f := ⟨_, List.getElem?_eq_getElem hi⟩
    obtain ⟨value, hvalue⟩ : ∃ value, m[i]? = some value :=
      ⟨_, List.getElem?_eq_getElem (hm.length_eq ▸ hi)⟩
    rw [(List.getElem?_eq_some_iff.mp hf).2, beq_iff_eq] at hnumber
    have hmem := (h.fields type).mem_iff.mpr (List.mem_of_getElem? hf)
    obtain ⟨j, hj⟩ := List.getElem?_of_mem hmem
    rw [← hnumber, findIdx?_number ((h.wellFormed hs).distinct type) hj]
    simp only [hf, hvalue, hj, getElem?_rearrange hs ⟨hf, hvalue⟩ hj]
    rw [mergeValue_rearrange hs h hn (hm.field hf hvalue)]
    dsimp only [Merged.map]
    rw [rearrange_set hs h hm.length_eq hf hj]

theorem mergeNextWith_inStep (hs : s.WellFormed) (h : s.Rearranged s')
    (hn : NestedInStep s s' nested nested') (htyped : NestedTyped s nested) (budget type : Nat) :
    Delimited.InStep (rearrange s s' type) (HasType s type)
      (mergeNextWith s nested budget type) (mergeNextWith s' nested' budget type) where
  alike hm bytes := by
    unfold mergeNextWith
    cases Key.decode bytes with
    | error e => rfl
    | ok read => exact mergeFieldWith_rearrange hs h hn hm read.1.1 read.1.2 read.2
  keeps hm hstep := mergeNextWith_hasType hs htyped hm hstep

theorem nestedInStep (hs : s.WellFormed) (h : s.Rearranged s') (budget : Nat) :
    NestedInStep s s' (mergeNested s budget) (mergeNested s' budget) := by
  induction budget with
  | zero =>
    intro type m hm bytes
    rfl
  | succ budget ih =>
    intro type m hm bytes
    exact (mergeNextWith_inStep hs h ih (nestedTyped hs budget) budget type).mergeDelimited hm bytes

theorem merge_rearrange (hs : s.WellFormed) (h : s.Rearranged s') (hm : HasType s type m)
    (bytes : Bytes) :
    merge s' type (rearrange s s' type m) bytes =
      (merge s type m bytes).map (rearrange s s' type) :=
  (mergeNextWith_inStep hs h (nestedInStep hs h recursionLimit) (nestedTyped hs recursionLimit)
    recursionLimit type).mergeWhile 0 hm bytes

end

/-- **The wire format does not depend on the order of declaration.** Files that declare the fields
of their messages in another order are linked as well, to a schema that differs in that order only.
For every such schema, a message with its fields rearranged at every depth has the same length and
the same bytes, which are those of its fields in ascending order of their numbers. Merging any bytes
into it comes to the same end, the same failure included, with the result rearranged. Nothing is
lost: rearranging back gives the message again. -/
theorem wire_order_free {files : List LoadedFile} {s : Schema}
    (hlink : Linking.link files = .ok s) :
    (∀ files', List.Forall₂ LoadedFile.Rearranged files files' →
      ∃ s', Linking.link files' = .ok s' ∧ s.Rearranged s') ∧
    ∀ s', s.Rearranged s' → ∀ (type : Nat) (m : Record), HasType s type m →
      HasType s' type (rearrange s s' type m) ∧
      rearrange s' s type (rearrange s s' type m) = m ∧
      encodedLen s' type (rearrange s s' type m) = encodedLen s type m ∧
      encode s' type (rearrange s s' type m) = encode s type m ∧
      (∃ written : List (Field × FieldValue), written.Perm ((s.fields type).zip m) ∧
        written.Pairwise (fun a b => a.1.number < b.1.number) ∧
        encode s type m = written.flatMap fun x => encodeField s x.1 x.2) ∧
      ∀ bytes, merge s' type (rearrange s s' type m) bytes =
        (merge s type m bytes).map (rearrange s s' type) := by
  have hs := Linking.wellFormed_of_link hlink
  refine ⟨fun files' hfiles => Linking.link_rearranged hfiles hlink, ?_⟩
  intro s' h type m hm
  obtain ⟨hlen, hbytes⟩ := encode_rearrange hs h hm
  exact ⟨rearrange_hasType hs h hm, rearrange_rearrange hs h hm, hlen, hbytes,
    encode_ascending hs hm, merge_rearrange hs h hm⟩

end Record

namespace Tree

/-- The fields of nodes in reverse. -/
def turned : Schema :=
  { schema with messages := [mark, { node with fields := node.fields.reverse }] }

/-- The files that declare them so. -/
def turnedFiles : List LoadedFile :=
  [⟨⟨"mark.proto", none, "", ⟨.proto2, none, [], [],
      [messageDecl "Mark" [fieldDecl (some .required) (.scalar .int32) "id" 1]], []⟩⟩, false⟩,
    ⟨⟨"node.proto", none, "", ⟨.proto3, none, [⟨.plain, "mark.proto", ⟨0, 0⟩, ⟨0, 0⟩⟩], [],
      [messageDecl "Node" nodeFields.reverse], []⟩⟩, true⟩]

theorem rearranged_turned : schema.Rearranged turned :=
  ⟨.cons ⟨.refl _, rfl⟩ (.cons ⟨List.reverse_perm _, rfl⟩ .nil), rfl⟩

theorem rearranged_turnedFiles : List.Forall₂ LoadedFile.Rearranged files turnedFiles :=
  .cons ⟨rfl, rfl, rfl, rfl, rfl, .cons (.mk (.refl _) .nil) .nil, rfl⟩
    (.cons ⟨rfl, rfl, rfl, rfl, rfl, .cons (.mk (List.reverse_perm _) .nil) .nil, rfl⟩ .nil)

end Tree

namespace Record

/-- The values of a branch in reverse, and those of the leaves in it, are written as before. Another
branch is merged into it, or a byte that is none. -/
theorem wire_order_free_branch :
    Linking.link Tree.files = .ok Tree.schema ∧
      List.Forall₂ LoadedFile.Rearranged Tree.files Tree.turnedFiles ∧
      (∃ s', Linking.link Tree.turnedFiles = .ok s' ∧ Tree.schema.Rearranged s') ∧
      Tree.schema.Rearranged Tree.turned ∧ HasType Tree.schema 1 Tree.branch ∧
      rearrange Tree.schema Tree.turned 1 Tree.branch =
        [.message [.scalar (.i32 (-1))], .scalars [.u32 1, .u32 300],
          .messages [Tree.leaf.reverse, Tree.leaf.reverse], .scalar (.f64 0x7ff8000000000001),
          .message Tree.leaf.reverse] ∧
      encode Tree.turned 1 (rearrange Tree.schema Tree.turned 1 Tree.branch) =
        encode Tree.schema 1 Tree.branch ∧
      merge Tree.turned 1 (rearrange Tree.schema Tree.turned 1 Tree.branch)
          (encode Tree.schema 1 Tree.branch ++ [0xff]) =
        (merge Tree.schema 1 Tree.branch (encode Tree.schema 1 Tree.branch ++ [0xff])).map
          (rearrange Tree.schema Tree.turned 1) := by
  obtain ⟨hfiles, hschemas⟩ := wire_order_free Tree.link_files
  obtain ⟨-, -, -, hbytes, -, hmerge⟩ :=
    hschemas Tree.turned Tree.rearranged_turned 1 Tree.branch Tree.branch_hasType
  exact ⟨Tree.link_files, Tree.rearranged_turnedFiles,
    hfiles Tree.turnedFiles Tree.rearranged_turnedFiles, Tree.rearranged_turned,
    Tree.branch_hasType, rfl, hbytes, hmerge _⟩

end Record
end Protobuf

import Protobuf.Proofs.Record.RoundTrip
import Protobuf.Proofs.Record.Stream

/-! Which required field is reported.

Decoding asks for the required fields at the end, of the message and of all messages in it. It stops
at the first one that is unset, so that the error depends on the order in which fields are visited.
`Missing` knows of no order: a required field is unset somewhere, and a path leads to it. The check
reports the field with the first path (`checkFields_first`): fields come in the order of their
declaration, and the messages of a field one after the other. A field comes before everything in its
messages, as its path is the beginning of theirs. -/
namespace Protobuf.Record

/-- A required field of a message is unset, here or in a message inside. The path has the place of
the field; or it has the place of the field that holds the message, the place of the message in it,
and then the path in that message. -/
inductive Missing (s : Schema) : (message : String) → List Field → Record → (path : List Nat) →
    (owner field : String) → Prop where
  | here {message : String} {fields : List Field} {record : Record} {i : Nat} {f : Field}
      {value : FieldValue} : (fields.zip record)[i]? = some (f, value) →
      f.cardinality = .required → value.isAbsent = true →
      Missing s message fields record [i] message f.name
  | inside {message : String} {fields : List Field} {record inner : Record} {i k : Nat} {f : Field}
      {value : FieldValue} {path : List Nat} {owner field : String} :
      (fields.zip record)[i]? = some (f, value) → value.records[k]? = some inner →
      Missing s (s.nameInside f) (s.fieldsInside f) inner path owner field →
      Missing s message fields record (i :: k :: path) owner field

/-- A required field is unset in one of these messages, which a field holds. -/
inductive MissingInside (s : Schema) (f : Field) (records : List Record) :
    (path : List Nat) → (owner field : String) → Prop where
  | mk {inner : Record} {k : Nat} {path : List Nat} {owner field : String} :
      records[k]? = some inner →
      Missing s (s.nameInside f) (s.fieldsInside f) inner path owner field →
      MissingInside s f records (k :: path) owner field

/-! ### First faults -/

/-- A path comes before another, or is the same. The first place that differs decides, and a path
comes before those that go on from it. -/
inductive NoLater : List Nat → List Nat → Prop where
  | nil {path : List Nat} : NoLater [] path
  | less {i j : Nat} {path path' : List Nat} : i < j → NoLater (i :: path) (j :: path')
  | same {i : Nat} {path path' : List Nat} : NoLater path path' → NoLater (i :: path) (i :: path')

/-- The first of the faults, by their paths. -/
structure IsFirst (faults : List Nat → String → String → Prop) (path : List Nat)
    (owner field : String) : Prop where
  fault : faults path owner field
  noLater : ∀ {path' : List Nat} {owner' field' : String}, faults path' owner' field' →
    NoLater path path'

/-- A check reports the first fault, or nothing if there are no faults. -/
def ReportsFirst (faults : List Nat → String → String → Prop) : Except DecodeError Unit → Prop
  | .ok () => ∀ path owner field, ¬ faults path owner field
  | .error e => ∃ path owner field, IsFirst faults path owner field ∧
      e = .missingRequired owner field

namespace ReportsFirst
variable {p q : List Nat → String → String → Prop} {r r' : Except DecodeError Unit}

theorem congr (h : ReportsFirst p r)
    (hiff : ∀ path owner field, q path owner field ↔ p path owner field) : ReportsFirst q r := by
  have heq : q = p := funext fun path => funext fun owner => funext fun field =>
    propext (hiff path owner field)
  rw [heq]
  exact h

/-- One check after the other, if the faults of the second all come later. -/
theorem andThen (h : ReportsFirst p r) (h' : ReportsFirst q r')
    (hlater : ∀ {path path' : List Nat} {owner field owner' field' : String}, p path owner field →
      q path' owner' field' → NoLater path path') :
    ReportsFirst (fun path owner field => p path owner field ∨ q path owner field)
      (r.bind fun _ => r') := by
  cases r with
  | error e =>
    obtain ⟨path, owner, field, hfirst, he⟩ := h
    refine ⟨path, owner, field, ⟨.inl hfirst.fault, fun hother => ?_⟩, he⟩
    exact hother.elim (fun hp => hfirst.noLater hp) fun hq => hlater hfirst.fault hq
  | ok found =>
    have hiff : ∀ path owner field, (p path owner field ∨ q path owner field) ↔
        q path owner field := fun path owner field => or_iff_right (h path owner field)
    exact h'.congr hiff

/-- The same faults, each under a longer path. -/
theorem under (h : ReportsFirst p r) (extend : List Nat → List Nat)
    (hextend : ∀ {path path' : List Nat}, NoLater path path' →
      NoLater (extend path) (extend path')) :
    ReportsFirst (fun path owner field => ∃ path', path = extend path' ∧ p path' owner field)
      r := by
  cases r with
  | error e =>
    obtain ⟨path, owner, field, hfirst, he⟩ := h
    refine ⟨extend path, owner, field, ⟨⟨path, rfl, hfirst.fault⟩, ?_⟩, he⟩
    rintro _ owner' field' ⟨path', rfl, hfault⟩
    exact hextend (hfirst.noLater hfault)
  | ok found =>
    rintro _ owner field ⟨path', rfl, hfault⟩
    exact h path' owner field hfault

end ReportsFirst

/-! ### Paths -/

/-- The path to the same place if one more stands in front of it. -/
def nextPath : List Nat → List Nat
  | [] => []
  | i :: path => (i + 1) :: path

theorem NoLater.nextPath {path path' : List Nat} (h : NoLater path path') :
    NoLater (nextPath path) (nextPath path') := by
  cases h with
  | nil => exact .nil
  | less hlt => exact .less (Nat.succ_lt_succ hlt)
  | same hrest => exact .same hrest

section
variable {s : Schema} {message owner field : String} {f : Field} {others : List Field}
  {value : FieldValue} {rest record : Record} {records : List Record} {path : List Nat}

/-- Something is missing in a record: the first field itself, something in its messages, or
something in the other fields. -/
theorem missing_cons_iff :
    Missing s message (f :: others) (value :: rest) path owner field ↔
      (path = [0] ∧ f.cardinality = .required ∧ value.isAbsent = true ∧ owner = message ∧
          field = f.name) ∨
        (∃ path', path = 0 :: path' ∧ MissingInside s f value.records path' owner field) ∨
          ∃ path', path = nextPath path' ∧ Missing s message others rest path' owner field := by
  constructor
  · intro h
    cases h with
    | @here _ _ _ i g v hat hrequired habsent =>
      cases i with
      | zero =>
        cases hat
        exact .inl ⟨rfl, hrequired, habsent, rfl, rfl⟩
      | succ i => exact .inr (.inr ⟨[i], rfl, .here hat hrequired habsent⟩)
    | @inside _ _ _ inner i k g v path _ _ hat hinner hmissing =>
      cases i with
      | zero =>
        cases hat
        exact .inr (.inl ⟨k :: path, rfl, .mk hinner hmissing⟩)
      | succ i => exact .inr (.inr ⟨i :: k :: path, rfl, .inside hat hinner hmissing⟩)
  · rintro (⟨rfl, hrequired, habsent, rfl, rfl⟩ | ⟨path', rfl, hinside⟩ | ⟨path', rfl, h⟩)
    · exact .here (i := 0) rfl hrequired habsent
    · obtain ⟨hinner, hmissing⟩ := hinside
      exact .inside (i := 0) rfl hinner hmissing
    · cases h with
      | here hat hrequired habsent => exact .here hat hrequired habsent
      | inside hat hinner hmissing => exact .inside hat hinner hmissing

theorem missingInside_cons_iff :
    MissingInside s f (record :: records) path owner field ↔
      (∃ path', path = 0 :: path' ∧
        Missing s (s.nameInside f) (s.fieldsInside f) record path' owner field) ∨
      ∃ path', path = nextPath path' ∧ MissingInside s f records path' owner field := by
  constructor
  · rintro @⟨inner, k, path, _, _, hinner, hmissing⟩
    cases k with
    | zero =>
      cases hinner
      exact .inl ⟨path, rfl, hmissing⟩
    | succ k => exact .inr ⟨k :: path, rfl, .mk hinner hmissing⟩
  · rintro (⟨path', rfl, hmissing⟩ | ⟨path', rfl, hinner, hmissing⟩)
    · exact .mk (k := 0) rfl hmissing
    · exact .mk hinner hmissing

/-- What is missing in the first place comes before what is missing further on. -/
theorem Missing.noLater_nextPath {fields : List Field}
    (h : Missing s message fields record path owner field) (first : List Nat) :
    NoLater (0 :: first) (nextPath path) := by
  cases h <;> exact .less (Nat.succ_pos _)

theorem MissingInside.noLater_nextPath (h : MissingInside s f records path owner field)
    (first : List Nat) : NoLater (0 :: first) (nextPath path) := by
  cases h
  exact .less (Nat.succ_pos _)

theorem not_missing_of_zip_eq_nil {fields : List Field} (h : fields.zip record = []) :
    ¬ Missing s message fields record path owner field := by
  intro hmissing
  cases hmissing with
  | here hat _ _ => simp [h] at hat
  | inside hat _ _ => simp [h] at hat

theorem not_missingInside_nil : ¬ MissingInside s f [] path owner field := by
  rintro ⟨hinner, -⟩
  cases hinner

end

/-! ### The check -/

theorem checkFields_cons (s : Schema) (message : String) (f : Field) (others : List Field)
    (value : FieldValue) (rest : Record) :
    checkFields s message (f :: others) (value :: rest) =
      (checkPresence message f value).bind fun _ =>
        (checkContents s f value).bind fun _ => checkFields s message others rest := by
  rw [checkFields]
  cases checkPresence message f value with
  | error e => rfl
  | ok found => cases checkContents s f value <;> rfl

theorem checkRecords_cons (s : Schema) (f : Field) (record : Record) (rest : List Record) :
    checkRecords s f (record :: rest) =
      (checkFields s (s.nameInside f) (s.fieldsInside f) record).bind fun _ =>
        checkRecords s f rest := by
  rw [checkRecords]
  cases checkFields s (s.nameInside f) (s.fieldsInside f) record <;> rfl

theorem checkPresence_first (message : String) (f : Field) (value : FieldValue) :
    ReportsFirst (fun path owner field => path = [0] ∧ f.cardinality = .required ∧
        value.isAbsent = true ∧ owner = message ∧ field = f.name)
      (checkPresence message f value) := by
  unfold checkPresence
  by_cases hmissing : f.cardinality = .required ∧ value.isAbsent = true
  · rw [if_pos hmissing]
    refine ⟨[0], message, f.name, ⟨⟨rfl, hmissing.1, hmissing.2, rfl, rfl⟩, ?_⟩, rfl⟩
    rintro _ owner field ⟨rfl, -⟩
    exact .same .nil
  · rw [if_neg hmissing]
    rintro path owner field ⟨-, hrequired, habsent, -⟩
    exact hmissing ⟨hrequired, habsent⟩

mutual

theorem checkContents_first (s : Schema) (f : Field) : (value : FieldValue) →
    ReportsFirst (MissingInside s f value.records) (checkContents s f value)
  | .absent => fun _ _ _ => not_missingInside_nil
  | .scalar _ => fun _ _ _ => not_missingInside_nil
  | .scalars _ => fun _ _ _ => not_missingInside_nil
  | .message record => by
    have hrecord := checkFields_first s (s.nameInside f) (s.fieldsInside f) record
    refine (hrecord.under (0 :: ·) .same).congr fun path owner field => ?_
    rw [FieldValue.records, missingInside_cons_iff]
    refine or_iff_left ?_
    rintro ⟨path', -, hinside⟩
    exact not_missingInside_nil hinside
  | .messages records => checkRecords_first s f records

/-- **The check of a record reports the first field that is missing**, if there is one. -/
theorem checkFields_first (s : Schema) (message : String) (fields : List Field) :
    (record : List FieldValue) →
      ReportsFirst (Missing s message fields record) (checkFields s message fields record)
  | [] => fun _ _ _ => not_missing_of_zip_eq_nil List.zip_nil_right
  | value :: rest => by
    cases fields with
    | nil => exact fun _ _ _ => not_missing_of_zip_eq_nil rfl
    | cons f others =>
      have hcontents := (checkContents_first s f value).under (0 :: ·) .same
      have hothers := (checkFields_first s message others rest).under nextPath .nextPath
      rw [checkFields_cons]
      refine ReportsFirst.congr ?_ fun path owner field => missing_cons_iff
      refine (checkPresence_first message f value).andThen (hcontents.andThen hothers ?_) ?_
      · rintro _ _ owner field owner' field' ⟨path, rfl, -⟩ ⟨path', rfl, hmissing⟩
        exact hmissing.noLater_nextPath path
      · rintro _ _ owner field owner' field' ⟨rfl, -⟩
          (⟨path', rfl, -⟩ | ⟨path', rfl, hmissing⟩)
        · exact .same .nil
        · exact hmissing.noLater_nextPath []

theorem checkRecords_first (s : Schema) (f : Field) : (records : List (List FieldValue)) →
    ReportsFirst (MissingInside s f records) (checkRecords s f records)
  | [] => fun _ _ _ => not_missingInside_nil
  | record :: rest => by
    have hrecord := (checkFields_first s (s.nameInside f) (s.fieldsInside f) record).under (0 :: ·)
      .same
    have hrest := (checkRecords_first s f rest).under nextPath .nextPath
    rw [checkRecords_cons]
    refine ReportsFirst.congr ?_ fun path owner field => missingInside_cons_iff
    refine hrecord.andThen hrest ?_
    rintro _ _ owner field owner' field' ⟨path, rfl, -⟩ ⟨path', rfl, hinside⟩
    exact hinside.noLater_nextPath path

end

/-! ### Decoding -/

/-- **Required fields are checked exactly.** Bytes that can be merged into an unset message are
decoded to what that gives if and only if every required field is set, in the message and in those
inside it. Otherwise the error has the full name of the message and the name of the field that come
first, when fields are visited in the order of their declaration and each field before what is in
its messages. -/
theorem required_exact (s : Schema) (type : Nat) {bytes rest : Bytes} {m : Record}
    (h : merge s type (s.unsetRecord type) bytes = ⟨m, .ok rest⟩) :
    (decode s type bytes = .ok m ↔ RequiredSet s (s.fields type) m) ∧
      (¬ RequiredSet s (s.fields type) m →
        ∃ path owner field,
          IsFirst (Missing s (s.typeName type) (s.fields type) m) path owner field ∧
            decode s type bytes = .error (.missingRequired owner field)) := by
  have hdecode : decode s type bytes = (check s type m).map fun _ => m := by
    rw [decode, h, complete]
    cases check s type m <;> rfl
  have hfirst := checkFields_first s (s.typeName type) (s.fields type) m
  rw [hdecode, ← check_eq_ok_iff]
  rw [← check] at hfirst
  cases hcheck : check s type m with
  | ok found => exact ⟨iff_of_true rfl rfl, fun hnot => absurd rfl hnot⟩
  | error e =>
    rw [hcheck] at hfirst
    obtain ⟨path, owner, field, hfield, rfl⟩ := hfirst
    refine ⟨iff_of_false (fun hok => ?_) (fun hok => ?_), fun _ => ?_⟩
    · cases hok
    · cases hok
    · exact ⟨path, owner, field, hfield, rfl⟩

end Protobuf.Record

/-! ### A parcel without weight -/

namespace Protobuf.Parcel
open Record

/-- A parcel has stops, which are declared in front of its weight but have a higher number. -/
def schema : Schema where
  files := [⟨"parcel.proto", some ["post"], .proto2, [0, 1], [], true⟩]
  messages :=
    [⟨"Stop", ["post", "Stop"], 0, none,
        [⟨"house", 1, .required, .scalar .uint32, false, none, false⟩], [], []⟩,
      ⟨"Parcel", ["post", "Parcel"], 0, none,
        [⟨"stops", 2, .repeated, .message 0, false, none, false⟩,
          ⟨"weight", 1, .required, .scalar .uint32, false, none, false⟩], [], []⟩]
  enums := []

/-- A parcel with one stop, of which nothing is known. -/
theorem merge_stop :
    merge schema 1 (schema.unsetRecord 1) [0x12, 0x00] =
      ⟨[.messages [[.absent]], .absent], .ok []⟩ := by
  have hstop : mergeNested schema recursionLimit 0 [.absent] [0x00] = ⟨[.absent], .ok []⟩ :=
    (mergeNested_window (p := [0x00]) rfl).mpr ⟨by decide, rfl, .nil⟩
  have happend : appendMessage schema (mergeNested schema recursionLimit) 0 .lengthDelimited
      (.messages []) [0x00] = ⟨.messages [[.absent]], .ok []⟩ :=
    appendMessage_eq_ok_iff.mpr ⟨rfl, [.absent], hstop, rfl⟩
  refine merge_eq_ok_iff.mpr ⟨rfl, .single (by decide) ?_⟩
  show (appendMessage schema (mergeNested schema recursionLimit) 0 .lengthDelimited (.messages [])
    [0x00]).map _ = _
  rw [happend]
  rfl

end Protobuf.Parcel

namespace Protobuf.Record

/-- The stop lacks its house and the parcel its weight; the house comes first. -/
theorem required_exact_parcel :
    merge Parcel.schema 1 (Parcel.schema.unsetRecord 1) [0x12, 0x00] =
        ⟨[.messages [[.absent]], .absent], .ok []⟩ ∧
      (∃ path, IsFirst (Missing Parcel.schema (Parcel.schema.typeName 1) (Parcel.schema.fields 1)
        [.messages [[.absent]], .absent]) path "post.Stop" "house") ∧
      decode Parcel.schema 1 [0x12, 0x00] = .error (.missingRequired "post.Stop" "house") := by
  have hdecode : decode Parcel.schema 1 [0x12, 0x00] =
      .error (.missingRequired "post.Stop" "house") := by
    rw [decode, Parcel.merge_stop]
    rfl
  obtain ⟨hok, herror⟩ := required_exact Parcel.schema 1 Parcel.merge_stop
  have hnot : ¬ RequiredSet Parcel.schema (Parcel.schema.fields 1)
      [.messages [[.absent]], .absent] := by
    rw [← hok, hdecode]
    intro h
    cases h
  obtain ⟨path, owner, field, hfirst, hsame⟩ := herror hnot
  rw [hdecode] at hsame
  cases hsame
  exact ⟨Parcel.merge_stop, ⟨path, hfirst⟩, hdecode⟩

end Protobuf.Record

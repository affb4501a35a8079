import Protobuf.Proofs.Wire.CodecLaws
import Protobuf.Record.Merge

/-! What is said of records: their types, how deep they nest, what is lost of them on the wire, and
how two of them are merged.

A record is a list of values, so that not every record is one of a message type; `Fits` says which
are. `depth` counts the messages around the innermost one. On the wire nothing is lost but the sign
of a zero in a field with implicit presence (`normalize`), and `combine` merges two records field by
field, without any bytes. -/
namespace Protobuf

/-- Whether a value is one of the type. -/
def FieldType.Holds : FieldType → ScalarValue → Prop
  | scalar type, value => type.Holds value
  | enum _, value => Scalar.int32.Holds value
  | message _, _ => False

theorem FieldType.codec_lawful (t : FieldType) : t.codec.Lawful t.Holds := by
  cases t with
  | scalar type => exact type.codec_lawful
  | enum index => exact Scalar.int32.codec_lawful
  | message index => exact Scalar.int32.codec_lawful.mono fun h => h.elim

theorem FieldType.isMessage_of_holds {t : FieldType} {value : ScalarValue} (h : t.Holds value) :
    t.isMessage = false := by
  cases t with
  | scalar type => rfl
  | enum index => rfl
  | message index => exact h.elim

/-- The value without the sign of a zero, if it is a float. -/
def ScalarValue.unsignedZero : ScalarValue → ScalarValue
  | .f32 bits => if bits = 0x80000000 then .f32 0 else .f32 bits
  | .f64 bits => if bits = 0x8000000000000000 then .f64 0 else .f64 bits
  | value => value

/-- The messages that a value holds. -/
def FieldValue.records : FieldValue → List Record
  | message record => [record]
  | messages records => records
  | absent | scalar _ | scalars _ => []

namespace Record

/-! ### Types -/

mutual

/-- Whether a field can have this value. -/
def FitsField (s : Schema) (f : Field) : FieldValue → Prop
  | .absent => f.cardinality = .optional ∨ f.cardinality = .required
  | .scalar value => f.cardinality ≠ .repeated ∧ f.type.Holds value
  | .scalars values =>
    f.cardinality = .repeated ∧ f.type.isMessage = false ∧ ∀ value ∈ values, f.type.Holds value
  | .message record =>
    f.cardinality ≠ .repeated ∧ f.type.isMessage = true ∧ Fits s (s.fieldsInside f) record
  | .messages records =>
    f.cardinality = .repeated ∧ f.type.isMessage = true ∧ FitEach s f records

/-- Whether there is one value for each field, and the field can have it. -/
def Fits (s : Schema) (fields : List Field) : List FieldValue → Prop
  | [] => fields = []
  | value :: rest =>
    match fields with
    | [] => False
    | f :: others => FitsField s f value ∧ Fits s others rest

def FitEach (s : Schema) (f : Field) : List (List FieldValue) → Prop
  | [] => True
  | record :: rest => Fits s (s.fieldsInside f) record ∧ FitEach s f rest

end

/-- Whether a record is a value of the message type with this number. -/
def HasType (s : Schema) (type : Nat) (record : Record) : Prop :=
  Fits s (s.fields type) record

theorem Fits.length_eq {s : Schema} {fields : List Field} {record : Record}
    (h : Fits s fields record) : record.length = fields.length := by
  induction record generalizing fields with
  | nil =>
    have hnil : fields = [] := h
    rw [hnil]
    rfl
  | cons value rest ih =>
    cases fields with
    | nil => exact h.elim
    | cons f others =>
      have h' : FitsField s f value ∧ Fits s others rest := h
      rw [List.length_cons, List.length_cons, ih h'.2]

theorem Fits.field {s : Schema} {fields : List Field} {record : Record} (h : Fits s fields record)
    {i : Nat} {f : Field} {value : FieldValue} (hf : fields[i]? = some f)
    (hv : record[i]? = some value) : FitsField s f value := by
  induction record generalizing fields i with
  | nil => simp at hv
  | cons first rest ih =>
    cases fields with
    | nil => exact h.elim
    | cons g others =>
      have h' : FitsField s g first ∧ Fits s others rest := h
      cases i with
      | zero =>
        simp only [List.getElem?_cons_zero, Option.some.injEq] at hf hv
        rw [← hf, ← hv]
        exact h'.1
      | succ i =>
        rw [List.getElem?_cons_succ] at hf hv
        exact ih h'.2 hf hv

/-! ### Depth -/

mutual

/-- How many messages are nested in a value. -/
def valueDepth : FieldValue → Nat
  | .absent | .scalar _ | .scalars _ => 0
  | .message record => depth record + 1
  | .messages records => depthOfEach records

/-- How many messages are nested in a record, one inside the other. -/
def depth : List FieldValue → Nat
  | [] => 0
  | value :: rest => max (valueDepth value) (depth rest)

def depthOfEach : List (List FieldValue) → Nat
  | [] => 0
  | record :: rest => max (depth record + 1) (depthOfEach rest)

end

/-! ### Values at any depth -/

/-- A field has this value, in the record or in a message at any depth in it. -/
inductive Occurs (s : Schema) : List Field → Record → Field → FieldValue → Prop where
  | here {fields : List Field} {record : Record} {f : Field} {value : FieldValue} :
      (f, value) ∈ fields.zip record → Occurs s fields record f value
  | inside {fields : List Field} {record inner : Record} {f g : Field} {value v : FieldValue} :
      (f, value) ∈ fields.zip record → inner ∈ value.records →
      Occurs s (s.fieldsInside f) inner g v → Occurs s fields record g v

/-! ### What is lost on the wire -/

mutual

/-- The value of a field after it was on the wire: the zero of a field with implicit presence has
no sign. -/
def normalizeField (s : Schema) (f : Field) : FieldValue → FieldValue
  | .absent => .absent
  | .scalar value => .scalar (if f.cardinality = .implicit then value.unsignedZero else value)
  | .scalars values => .scalars values
  | .message record => .message (normalize s (s.fieldsInside f) record)
  | .messages records => .messages (normalizeEach s f records)

/-- A record after it was on the wire. -/
def normalize (s : Schema) (fields : List Field) : List FieldValue → List FieldValue
  | [] => []
  | value :: rest =>
    match fields with
    | [] => value :: rest
    | f :: others => normalizeField s f value :: normalize s others rest

def normalizeEach (s : Schema) (f : Field) : List (List FieldValue) → List (List FieldValue)
  | [] => []
  | record :: rest => normalize s (s.fieldsInside f) record :: normalizeEach s f rest

end

/-! ### Merging without bytes -/

mutual

/-- The value of a field into which another was merged. A set scalar replaces the old value, but
with implicit presence zero counts as unset; lists are joined; messages are merged, into an unset
one if there is none. -/
def combineField (s : Schema) (f : Field) (old : FieldValue) : FieldValue → FieldValue
  | .absent => old
  | .scalar value =>
    if f.cardinality = .implicit ∧ value.isZero = true then old else .scalar value
  | .scalars values => .scalars (old.toScalars ++ values)
  | .message record =>
    .message (combine s (s.fieldsInside f) (old.toRecord ((s.fieldsInside f).map Field.unset))
      record)
  | .messages records => .messages (old.toRecords ++ normalizeEach s f records)

/-- A record into which another was merged, field by field. -/
def combine (s : Schema) (fields : List Field) (olds : List FieldValue) :
    List FieldValue → List FieldValue
  | [] => []
  | value :: rest =>
    match fields, olds with
    | f :: others, old :: olds => combineField s f old value :: combine s others olds rest
    | _, _ => []

end

theorem length_combine {s : Schema} {fields : List Field} {olds news : Record}
    (holds : olds.length = fields.length) (hnews : news.length = fields.length) :
    (combine s fields olds news).length = fields.length := by
  induction news generalizing fields olds with
  | nil => exact hnews
  | cons value rest ih =>
    cases fields with
    | nil => cases hnews
    | cons f others =>
      cases olds with
      | nil => cases holds
      | cons old olds =>
        rw [combine, List.length_cons, List.length_cons,
          ih (Nat.succ.inj holds) (Nat.succ.inj hnews)]

theorem getElem?_combine {s : Schema} {fields : List Field} {olds news : Record} {i : Nat}
    {f : Field} {old value : FieldValue} (hf : fields[i]? = some f) (ho : olds[i]? = some old)
    (hv : news[i]? = some value) :
    (combine s fields olds news)[i]? = some (combineField s f old value) := by
  induction news generalizing fields olds i with
  | nil => simp at hv
  | cons first rest ih =>
    cases fields with
    | nil => simp at hf
    | cons g others =>
      cases olds with
      | nil => simp at ho
      | cons before olds =>
        cases i with
        | zero =>
          simp only [List.getElem?_cons_zero, Option.some.injEq] at hf ho hv
          subst hf ho hv
          rw [combine, List.getElem?_cons_zero]
        | succ i =>
          rw [List.getElem?_cons_succ] at hf ho hv
          rw [combine, List.getElem?_cons_succ]
          exact ih hf ho hv

/-! ### Required fields -/

mutual

/-- Whether the messages in a value have their required fields set. -/
def RequiredInside (s : Schema) (f : Field) : FieldValue → Prop
  | .absent | .scalar _ | .scalars _ => True
  | .message record => RequiredSet s (s.fieldsInside f) record
  | .messages records => RequiredSetEach s f records

/-- Whether every required field is set, in the record and in the messages in it. -/
def RequiredSet (s : Schema) (fields : List Field) : List FieldValue → Prop
  | [] => True
  | value :: rest =>
    match fields with
    | [] => True
    | f :: others =>
      (f.cardinality = .required → value.isAbsent = false) ∧ RequiredInside s f value ∧
        RequiredSet s others rest

def RequiredSetEach (s : Schema) (f : Field) : List (List FieldValue) → Prop
  | [] => True
  | record :: rest => RequiredSet s (s.fieldsInside f) record ∧ RequiredSetEach s f rest

end

end Record

/-! ### A type of trees -/

namespace Tree

/-- The mark on a node, from a file with required fields. -/
def mark : Message :=
  ⟨"Mark", ["Mark"], 0, none, [⟨"id", 1, .required, .scalar .int32, false, none, false⟩], [], []⟩

/-- A node. Its fields are not declared in the order of their numbers. -/
def node : Message where
  name := "Node"
  fullName := ["Node"]
  file := 1
  parent := none
  fields :=
    [⟨"next", 4, .optional, .message 1, false, none, true⟩,
      ⟨"weight", 2, .implicit, .scalar .double, false, none, false⟩,
      ⟨"children", 3, .repeated, .message 1, false, none, false⟩,
      ⟨"ports", 5, .repeated, .scalar .uint32, true, none, false⟩,
      ⟨"mark", 1, .optional, .message 0, false, none, false⟩]
  messages := []
  enums := []

/-- A schema with fields of all kinds. -/
def schema : Schema where
  files :=
    [⟨"mark.proto", none, .proto2, [0], [], false⟩, ⟨"node.proto", none, .proto3, [1], [], true⟩]
  messages := [mark, node]
  enums := []

/-- A node with a negative zero as its weight, and nothing else. -/
def leaf : Record :=
  [.absent, .scalar (.f64 0x8000000000000000), .messages [], .scalars [], .absent]

/-- A node with a leaf behind it, two leaves below it, a NaN as its weight, ports and a mark. -/
def branch : Record :=
  [.message leaf, .scalar (.f64 0x7ff8000000000001), .messages [leaf, leaf],
    .scalars [.u32 1, .u32 300], .message [.scalar (.i32 (-1))]]

/-- A node with a branch behind it and a leaf below. -/
def twig : Record :=
  [.message branch, .scalar (.f64 0x8000000000000000), .messages [leaf], .scalars [.u32 7], .absent]

theorem leaf_hasType : Record.HasType schema 1 leaf :=
  ⟨.inl rfl, ⟨by decide, trivial⟩, ⟨rfl, rfl, trivial⟩, ⟨rfl, rfl, by simp⟩, .inl rfl, rfl⟩

theorem branch_hasType : Record.HasType schema 1 branch :=
  ⟨⟨by decide, rfl, leaf_hasType⟩, ⟨by decide, trivial⟩,
    ⟨rfl, rfl, leaf_hasType, leaf_hasType, trivial⟩,
    ⟨rfl, rfl, by simp [FieldType.Holds, Scalar.Holds]⟩,
    ⟨by decide, rfl, ⟨by decide, trivial⟩, rfl⟩, rfl⟩

theorem twig_hasType : Record.HasType schema 1 twig :=
  ⟨⟨by decide, rfl, branch_hasType⟩, ⟨by decide, trivial⟩, ⟨rfl, rfl, leaf_hasType, trivial⟩,
    ⟨rfl, rfl, by simp [FieldType.Holds, Scalar.Holds]⟩, .inl rfl, rfl⟩

end Tree

end Protobuf

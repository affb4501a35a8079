import Protobuf.Proofs.Code.WireMethods
import Protobuf.Proofs.Record.FieldOrder
import Protobuf.Proofs.Record.Missing

/-! What the code of message types does.

A `Program` has the methods of all message types, as they were read from the code. Running a method
looks the fields of the struct up by their names, decides the conditions and calls the functions of
the library. A message inside another is written and read by the methods of its own type. Code that
takes an optional field for a value, or a value for a message, cannot be run, and then there is no
result.

Methods call those of the messages inside, so measuring, writing and checking are bounded by a
number of levels; a record with fewer levels never meets the bound. Reading is bounded by the budget
that the library has for nested messages. -/
namespace Protobuf

/-- The number of the message type that a field of this type holds. -/
def FieldType.message? : FieldType → Option Nat
  | message index => some index
  | _ => none

/-- Whether a field may be unset. -/
def Field.isOptional (f : Field) : Bool :=
  match f.cardinality with
  | .optional | .required => true
  | .repeated | .implicit => false

namespace MessageType
open Code EnumType

/-! ### Fields of a struct -/

/-- The methods of all message types and what their fields hold, by numbers of types. -/
structure Program where
  methods : Nat → Option WireMethods
  /-- The message type that a field holds, by the name of the field. -/
  held : Nat → String → Option Nat

/-- What a method sees of a struct: the values of its fields by their names, those of optional
fields apart from the others. -/
structure Scope where
  option : String → Option FieldValue
  plain : String → Option FieldValue
  held : String → Option Nat

/-- Whether a type is that of optional values. -/
def isOptionType (storage : String) : Bool :=
  (behind? (optionType ++ "<") storage).isSome

namespace Program
variable (p : Program)

/-- The place of a field in a struct, and whether it is optional. -/
def place? (type : Nat) (ident : String) : Option (Nat × Bool) :=
  (p.methods type).bind fun m => do
    let place ← m.fields.findIdx? (·.1 == ident)
    let field ← m.fields[place]?
    return (place, isOptionType field.2)

def scope (type : Nat) (record : Record) : Scope where
  option ident := (p.place? type ident).bind fun x => if x.2 then record[x.1]? else none
  plain ident := (p.place? type ident).bind fun x => if x.2 then none else record[x.1]?
  held := p.held type

end Program

/-! ### Writing -/

/-- The functions of the library that make something of values, in a family. Those for messages may
fail, as they run the methods of the message. -/
structure Family (α : Type) where
  join : List α → α
  one : Codec ScalarValue → Nat → ScalarValue → α
  repeated : Codec ScalarValue → Nat → List ScalarValue → α
  packed : Codec ScalarValue → Nat → List ScalarValue → α
  message : (type number : Nat) → Record → Option α

def CodecRef.codec? : CodecRef → Option (Codec ScalarValue)
  | scalar type => some type.codec
  | enumeration => some Scalar.int32.codec
  | message => none

/-- Whether a value passes a comparison, if it has the type for it. -/
def Condition.passes? : Condition → ScalarValue → Option Bool
  | isTrue _, .bool v => some v
  | notEmpty _, .string v => some (!v.isEmpty)
  | notEmpty _, .bytes v => some (!v.isEmpty)
  | nonzero _, .i32 v => some (v != 0)
  | nonzero _, .i64 v => some (v != 0)
  | nonzero _, .u32 v => some (v != 0)
  | nonzero _, .u64 v => some (v != 0)
  | nonzeroFloat _, .f32 v => some (!Binary.single.isZero v.toNat)
  | nonzeroFloat _, .f64 v => some (!Binary.double.isZero v.toNat)
  | _, _ => none

def Condition.holds? (scope : Scope) (c : Condition) : Option Bool :=
  match c with
  | .always => some true
  | .isSome ident => (scope.option ident).map (!·.isAbsent)
  | .isTrue ident | .notEmpty ident | .nonzero ident | .nonzeroFloat ident =>
    match scope.plain ident with
    | some (.scalar value) => c.passes? value
    | _ => none

/-- What a call makes of a value. -/
def Call.run (F : Family α) (held : Option Nat) (c : Call) : FieldValue → Option α
  | .absent => none
  | .scalar value =>
    match c.extent with
    | .one => c.codec.codec?.map fun codec => F.one codec c.number value
    | .repeated | .packed => none
  | .scalars values =>
    match c.extent with
    | .one => none
    | .repeated => c.codec.codec?.map fun codec => F.repeated codec c.number values
    | .packed => c.codec.codec?.map fun codec => F.packed codec c.number values
  | .message record =>
    match c.codec, c.extent, held with
    | .message, .one, some type => F.message type c.number record
    | _, _, _ => none
  | .messages records =>
    match c.codec, c.extent, held with
    | .message, .repeated, some type => (records.mapM (F.message type c.number)).map F.join
    | _, _, _ => none

/-- What is passed to the function: the field that was named, or the one that is known to be set. -/
def Statement.argument? (scope : Scope) (st : Statement) : Option (String × FieldValue) :=
  match st.call.argument, st.condition with
  | .field ident, _ => (scope.plain ident).map (Prod.mk ident)
  | .value, .isSome ident => (scope.option ident).map (Prod.mk ident)
  | .value, _ => none

def Statement.run (F : Family α) (scope : Scope) (st : Statement) : Option α :=
  (st.condition.holds? scope).bind fun holds =>
    if holds then
      (st.argument? scope).bind fun x => st.call.run F (scope.held x.1) x.2
    else some (F.join [])

def runStatements (F : Family α) (scope : Scope) (statements : List Statement) : Option α :=
  (statements.mapM (Statement.run F scope)).map F.join

/-- Lengths; `length` gives that of a message. -/
def lengths (length : Nat → Record → Option Nat) : Family Nat where
  join := List.sum
  one codec := codec.encodedLen
  repeated codec := codec.encodedLenRepeated
  packed codec := codec.encodedLenPacked
  message type number record := (length type record).map (Record.delimitedLen number)

/-- Bytes; `length` and `encode` give the length and the bytes of a message. -/
def encodings (length : Nat → Record → Option Nat) (encode : Nat → Record → Option Bytes) :
    Family Bytes where
  join := List.flatten
  one codec := codec.encode
  repeated codec := codec.encodeRepeated
  packed codec := codec.encodePacked
  message type number record :=
    (length type record).bind fun n => (encode type record).map (Record.delimited number n)

namespace Program
variable (p : Program)

/-- The length of a message that has less than so many levels. -/
def length : (levels : Nat) → Nat → Record → Option Nat
  | 0, _, _ => none
  | levels + 1, type, record =>
    (p.methods type).bind fun m =>
      runStatements (lengths (length levels)) (p.scope type record) m.length

/-- The bytes of a message that has less than so many levels. -/
def encode : (levels : Nat) → Nat → Record → Option Bytes
  | 0, _, _ => none
  | levels + 1, type, record =>
    (p.methods type).bind fun m =>
      runStatements (encodings (p.length levels) (encode levels)) (p.scope type record) m.encode

end Program

/-! ### Checking -/

/-- Checks one after the other, up to the first that fails. -/
def inSequence : List (Option (Except DecodeError Unit)) → Option (Except DecodeError Unit)
  | [] => some (.ok ())
  | first :: others =>
    first.bind fun
      | .error e => some (.error e)
      | .ok () => inSequence others

/-- Runs a check in a type with this full name; `check` checks a message. -/
def Check.run (check : Nat → Record → Option (Except DecodeError Unit)) (fullName : String)
    (scope : Scope) : Check → Option (Except DecodeError Unit)
  | isSome ident name => (scope.option ident).map fun value =>
      if value.isAbsent then .error (.missingRequired fullName name) else .ok ()
  | inside ident =>
    match scope.option ident, scope.held ident with
    | some .absent, some _ => some (.ok ())
    | some (.message record), some type => check type record
    | _, _ => none
  | insideEach ident =>
    match scope.plain ident, scope.held ident with
    | some (.messages records), some type => inSequence (records.map (check type))
    | _, _ => none

namespace Program
variable (p : Program)

/-- Checks a message that has less than so many levels. -/
def check : (levels : Nat) → Nat → Record → Option (Except DecodeError Unit)
  | 0, _, _ => none
  | levels + 1, type, record =>
    (p.methods type).bind fun m =>
      inSequence (m.check.map (Check.run (check levels) m.fullName (p.scope type record)))

end Program

/-! ### Reading -/

/-- The default value of a type, if it is one that fields have. -/
def defaultValue? (held : Option Nat) (storage : String) : Option FieldValue :=
  if isOptionType storage then some .absent
  else
    let isList := (behind? "::std::vec::Vec<" storage).isSome
    match held with
    | some _ => if isList then some (.messages []) else none
    | none =>
      match Scalar.all.find? (Literal.typeName · == storage) with
      | some type => some (.scalar type.codec.zero)
      | none => if isList then some (.scalars []) else none

/-- Reads the bytes of a message of some type into a record. The record is lost if that cannot be
run. -/
abbrev Reads := (type : Nat) → Record → Bytes → Merged (Option Record)

/-- What cannot be run. -/
def stuck (bytes : Bytes) : Merged (Option α) :=
  ⟨none, .ok bytes⟩

/-- The value to read into. An unset field gets a default value first, if the target is one of
optional fields. -/
def Target.opened (default : FieldValue) (value : FieldValue) : Target → FieldValue
  | field _ => value
  | inserted _ => if value.isAbsent then default else value

def Target.isInserted : Target → Bool
  | field _ => false
  | inserted _ => true

/-- Reads scalars into a value. -/
def Arm.readScalar (a : Arm) (codec : Codec ScalarValue) (wireType : WireType) (value : FieldValue)
    (bytes : Bytes) : Merged (Option FieldValue) :=
  match a.extent, a.target.opened (.scalar codec.zero) value with
  | .one, .scalar v => (codec.merge wireType v bytes).map fun v => some (.scalar v)
  | .repeated, .scalars vs =>
    (codec.mergeRepeated wireType vs bytes).map fun vs => some (.scalars vs)
  | _, _ => stuck bytes

/-- Reads a message into another. -/
def readInto (reads : Record → Bytes → Merged (Option Record)) (wireType : WireType)
    (record : Record) (bytes : Bytes) : Merged (Option FieldValue) :=
  match checkWireType .lengthDelimited wireType with
  | .error e => ⟨some (.message record), .error e⟩
  | .ok () => (reads record bytes).map (·.map .message)

/-- Reads a message into a new one and appends it. One that cannot be read is not appended. -/
def readBehind (reads : Record → Bytes → Merged (Option Record)) (default : Record)
    (wireType : WireType) (records : List Record) (bytes : Bytes) : Merged (Option FieldValue) :=
  match checkWireType .lengthDelimited wireType with
  | .error e => ⟨some (.messages records), .error e⟩
  | .ok () =>
    match reads default bytes with
    | ⟨none, rest⟩ => ⟨none, rest⟩
    | ⟨some record, .ok rest⟩ => ⟨some (.messages (records ++ [record])), .ok rest⟩
    | ⟨some _, .error e⟩ => ⟨some (.messages records), .error e⟩

/-- Reads a message into a value; a new message is `default`. -/
def Arm.readMessage (a : Arm) (reads : Record → Bytes → Merged (Option Record)) (default : Record)
    (wireType : WireType) (value : FieldValue) (bytes : Bytes) : Merged (Option FieldValue) :=
  match a.extent, a.target.opened (.message default) value with
  | .one, .message record => readInto reads wireType record bytes
  | .repeated, .messages records => readBehind reads default wireType records bytes
  | _, _ => stuck bytes

namespace Program
variable (p : Program)

/-- A new message. -/
def default? (type : Nat) : Option Record :=
  (p.methods type).bind fun m => m.fields.mapM fun f => defaultValue? (p.held type f.1) f.2

def runArm (reads : Reads) (held : Option Nat) (a : Arm) (wireType : WireType) (value : FieldValue)
    (bytes : Bytes) : Merged (Option FieldValue) :=
  match a.codec.codec?, held with
  | some codec, _ => a.readScalar codec wireType value bytes
  | none, some type =>
    match p.default? type with
    | some default => a.readMessage (reads type) default wireType value bytes
    | none => stuck bytes
  | none, none => stuck bytes

/-- Reads the payload of a field by the arm for its number, or skips it. -/
def mergeField (reads : Reads) (budget type : Nat) (record : Record) (number : Nat)
    (wireType : WireType) (bytes : Bytes) : Merged (Option Record) :=
  match (p.methods type).map (·.merge.find? (·.number == number)) with
  | none => stuck bytes
  | some none => ⟨some record, Skip.field budget wireType number bytes⟩
  | some (some a) =>
    match p.place? type a.target.ident with
    | none => stuck bytes
    | some (place, isOptional) =>
      match record[place]?, isOptional == a.target.isInserted with
      | some value, true =>
        (p.runArm reads (p.held type a.target.ident) a wireType value bytes).map
          fun v => v.map fun v => record.set place v
      | _, _ => stuck bytes

/-- Reads a key and the field behind it. -/
def mergeNext (reads : Reads) (budget type : Nat) (record : Option Record) (bytes : Bytes) :
    Merged (Option Record) :=
  match record with
  | none => stuck bytes
  | some record =>
    match Key.decode bytes with
    | .error e => ⟨some record, .error e⟩
    | .ok ((number, wireType), rest) => p.mergeField reads budget type record number wireType rest

/-- Reads a message inside another, with one level less of the budget for its fields. -/
def mergeNested : (budget : Nat) → Reads
  | 0 => fun _ record _ => ⟨some record, .error .recursionLimitReached⟩
  | budget + 1 => fun type record bytes =>
    Delimited.mergeDelimited (p.mergeNext (mergeNested budget) budget type) (some record) bytes

/-- Reads all bytes into a record. -/
def merge (type : Nat) (record : Record) (bytes : Bytes) : Merged (Option Record) :=
  Delimited.mergeWhile (p.mergeNext (p.mergeNested recursionLimit) recursionLimit type) 0
    (some record) bytes

end Program

end MessageType

end Protobuf

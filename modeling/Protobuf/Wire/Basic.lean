import Protobuf.Text.Utf8

/-! Wire types, what can be wrong with wire data, and the results of reading it.

A reader takes the unread bytes and gives a value and the bytes that are left. A merge changes a
state on the way, and the state counts also when it fails: `Merged` keeps both. -/
namespace Protobuf

/-- The low three bits of a key: how the payload of a field is laid out. -/
inductive WireType where
  | varint
  | sixtyFourBit
  | lengthDelimited
  | startGroup
  | endGroup
  | thirtyTwoBit
  deriving DecidableEq, Repr, Inhabited

namespace WireType

def toNat : WireType → Nat
  | varint => 0
  | sixtyFourBit => 1
  | lengthDelimited => 2
  | startGroup => 3
  | endGroup => 4
  | thirtyTwoBit => 5

def ofNat? : Nat → Option WireType
  | 0 => some varint
  | 1 => some sixtyFourBit
  | 2 => some lengthDelimited
  | 3 => some startGroup
  | 4 => some endGroup
  | 5 => some thirtyTwoBit
  | _ => none

def name : WireType → String
  | varint => "Varint"
  | sixtyFourBit => "SixtyFourBit"
  | lengthDelimited => "LengthDelimited"
  | startGroup => "StartGroup"
  | endGroup => "EndGroup"
  | thirtyTwoBit => "ThirtyTwoBit"

theorem ofNat?_toNat (w : WireType) : ofNat? w.toNat = some w := by
  cases w <;> rfl

end WireType

/-- What is wrong with wire data. -/
inductive Malformed where
  | invalidVarint
  | invalidKey (key : Nat)
  | invalidTag
  | invalidWireType (value : Nat)
  | wireTypeMismatch (expected actual : WireType)
  | bufferUnderflow
  | delimitedLengthExceeded
  | invalidUtf8
  | unexpectedEndGroup
  | recursionLimitReached
  deriving DecidableEq, Repr, Inhabited

def Malformed.message : Malformed → String
  | invalidVarint => "invalid varint"
  | invalidKey key => "invalid key value: " ++ key.repr
  | invalidTag => "invalid tag value: 0"
  | invalidWireType value => "invalid wire type value: " ++ value.repr
  | wireTypeMismatch expected actual =>
    "invalid wire type: " ++ actual.name ++ " (expected " ++ expected.name ++ ")"
  | bufferUnderflow => "buffer underflow"
  | delimitedLengthExceeded => "delimited length exceeded"
  | invalidUtf8 => "invalid string value: data is not UTF-8 encoded"
  | unexpectedEndGroup => "unexpected end group tag"
  | recursionLimitReached => "recursion limit reached"

/-- Why a message could not be decoded: its bytes are malformed, or it lacks a required field. -/
inductive DecodeError where
  | malformed (cause : Malformed)
  | missingRequired (message field : String)
  deriving DecidableEq, Repr, Inhabited

def DecodeError.message : DecodeError → String
  | malformed cause => "malformed wire data: " ++ cause.message
  | missingRequired message field =>
    "missing required field '" ++ field ++ "' in message '" ++ message ++ "'"

/-- A buffer is too small for what is to be written. -/
structure EncodeError where
  required : Nat
  remaining : Nat
  deriving DecidableEq, Repr, Inhabited

def EncodeError.message (e : EncodeError) : String :=
  "failed to encode message; insufficient buffer capacity (required: " ++ e.required.repr ++
    ", remaining: " ++ e.remaining.repr ++ ")"

/-- A value read from the front of the bytes, and the unread rest. -/
abbrev Reader (α : Type) := Bytes → Except Malformed (α × Bytes)

/-- Where a merge ended: the state it reached and, unless it failed, the unread rest. -/
structure Merged (σ : Type) where
  state : σ
  rest : Except Malformed Bytes
  deriving Inhabited

namespace Merged

/-- The same end, seen through a larger state. -/
def map (f : σ → τ) (m : Merged σ) : Merged τ :=
  ⟨f m.state, m.rest⟩

@[simp] theorem map_state (f : σ → τ) (m : Merged σ) : (m.map f).state = f m.state := rfl

@[simp] theorem map_rest (f : σ → τ) (m : Merged σ) : (m.map f).rest = m.rest := rfl

end Merged

/-- The limit on nested groups and messages. -/
def recursionLimit : Nat := 100

/-- A field must come with the wire type that its declared type asks for. -/
def checkWireType (expected actual : WireType) : Except Malformed Unit :=
  if expected = actual then .ok () else .error (.wireTypeMismatch expected actual)

end Protobuf

/-! Ranges of a source text and the line and column of a position.

Positions are byte offsets into the UTF-8 text. `Position.locate` gives the one-based line and
column that a reader of the text would name: columns count characters, an offset inside a character
means the start of that character, and an offset past the end means the end. -/
namespace Protobuf

/-- The bytes from `start` up to but not including `stop`. -/
structure Span where
  start : Nat
  stop : Nat
  deriving DecidableEq, Repr, Inhabited

/-- From the start of one range to the end of another. -/
def Span.join (first last : Span) : Span :=
  ⟨first.start, last.stop⟩

def Span.length (span : Span) : Nat :=
  span.stop - span.start

/-- The number of bytes of a run of characters. -/
def byteLength : List Char → Nat
  | [] => 0
  | c :: rest => c.utf8Size + byteLength rest

/-- A one-based line and column. -/
structure Position where
  line : Nat
  column : Nat
  deriving DecidableEq, Repr, Inhabited

namespace Position

/-- The position after a character. -/
def step (p : Position) (c : Char) : Position :=
  if c = '\n' then ⟨p.line + 1, 1⟩ else ⟨p.line, p.column + 1⟩

/-- The position `offset` bytes further on, starting from `p` in front of the text. -/
def walk (p : Position) : List Char → Nat → Position
  | [], _ => p
  | c :: rest, offset =>
    if offset < c.utf8Size then p else walk (p.step c) rest (offset - c.utf8Size)

/-- The line and column of the byte `offset` of a text. -/
def locate (text : String) (offset : Nat) : Position :=
  walk ⟨1, 1⟩ text.toList offset

end Position

end Protobuf

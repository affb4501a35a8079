import Protobuf.Number.Notation
import Protobuf.Text.Escape
import Protobuf.Text.Span

/-! Tokens of schema text and how they are written.

Keywords are identifiers: most of them may also name a field or a type, so only the place of an
identifier decides whether it is one. -/
namespace Protobuf

/-- The signs of one character. -/
inductive Punct where
  | dot
  | minus
  | plus
  | leftParen
  | rightParen
  | leftBrace
  | rightBrace
  | leftBracket
  | rightBracket
  | leftAngle
  | rightAngle
  | comma
  | equals
  | colon
  | semicolon
  deriving DecidableEq, Repr, Inhabited

namespace Punct

def toChar : Punct → Char
  | dot => '.'
  | minus => '-'
  | plus => '+'
  | leftParen => '('
  | rightParen => ')'
  | leftBrace => '{'
  | rightBrace => '}'
  | leftBracket => '['
  | rightBracket => ']'
  | leftAngle => '<'
  | rightAngle => '>'
  | comma => ','
  | equals => '='
  | colon => ':'
  | semicolon => ';'

def all : List Punct :=
  [dot, minus, plus, leftParen, rightParen, leftBrace, rightBrace, leftBracket, rightBracket,
   leftAngle, rightAngle, comma, equals, colon, semicolon]

def ofChar? (c : Char) : Option Punct :=
  all.find? (·.toChar == c)

theorem ofChar?_toChar (p : Punct) : ofChar? p.toChar = some p := by
  cases p <;> rfl

end Punct

/-- One token. A float is held as the bits of its 64-bit format, a string as its bytes after the
escapes, and a comment as its text without the signs around it. -/
inductive Token where
  | ident (name : String)
  | int (value : UInt64)
  | float (bits : UInt64)
  | string (bytes : Bytes)
  | punct (sign : Punct)
  | lineComment (text : String)
  | blockComment (text : String)
  deriving DecidableEq, Inhabited

namespace Token

/-- A token as messages show it. -/
def text : Token → String
  | ident name => name
  | int value => value.toNat.repr
  | float bits => Decimal.tokenText Binary.double bits.toNat
  | string bytes => String.ofList ('"' :: Escape.bytes bytes ++ ['"'])
  | punct sign => String.ofList [sign.toChar]
  | lineComment text => "//" ++ text
  | blockComment text => "/*" ++ text ++ "*/"

def isComment : Token → Bool
  | lineComment _ | blockComment _ => true
  | _ => false

end Token

end Protobuf

import Protobuf.Text.Utf8
import Protobuf.Text.Printable

/-! Escaped forms of bytes and text.

Three writers, each total and each readable back:

* `Escape.bytes` shows the bytes of a string literal in messages;
* `Escape.literal` is the body of a byte string literal in generated code;
* `Escape.quoted` is a text between double quotes, in generated code and in messages.

They share the escapes of tab, carriage return, line feed and backslash and differ in what else they
touch. -/
namespace Protobuf.Escape

/-- The digits of a number in hexadecimal, lower case. -/
def hexDigits (n : Nat) : List Char :=
  Nat.toDigits 16 n

/-- A byte as two hexadecimal digits. -/
def hexPair (b : UInt8) : List Char :=
  [Nat.digitChar (b.toNat / 16), Nat.digitChar (b.toNat % 16)]

/-- A byte as a character; meant for ASCII. -/
def asciiChar (b : UInt8) : Char :=
  Char.ofNat b.toNat

/-- A byte of a byte string literal: printable ASCII stands for itself, apart from the backslash and
the double quote. -/
def literalByte (b : UInt8) : List Char :=
  if b = 0x09 then ['\\', 't']
  else if b = 0x0D then ['\\', 'r']
  else if b = 0x0A then ['\\', 'n']
  else if b = 0x5C then ['\\', '\\']
  else if b = 0x22 then ['\\', '"']
  else if 0x20 ≤ b ∧ b ≤ 0x7E then [asciiChar b]
  else '\\' :: 'x' :: hexPair b

/-- The body of a byte string literal with these bytes. -/
def literal (bytes : Bytes) : List Char :=
  bytes.flatMap literalByte

/-- A byte of a string literal as messages show it: as in a byte string literal, with the single
quote escaped too. -/
def shownByte (b : UInt8) : List Char :=
  if b = 0x27 then ['\\', '\''] else literalByte b

/-- The bytes of a string literal as messages show them. -/
def bytes (bytes : Bytes) : List Char :=
  bytes.flatMap shownByte

/-- A character of a quoted text. -/
def quotedChar (c : Char) : List Char :=
  if c = Char.ofNat 0 then ['\\', '0']
  else if c = '\t' then ['\\', 't']
  else if c = '\r' then ['\\', 'r']
  else if c = '\n' then ['\\', 'n']
  else if c = '\\' then ['\\', '\\']
  else if c = '"' then ['\\', '"']
  else if Printable.isVisible c then [c]
  else '\\' :: 'u' :: '{' :: hexDigits c.toNat ++ ['}']

/-- A text between double quotes. -/
def quoted (text : String) : String :=
  String.ofList ('"' :: text.toList.flatMap quotedChar ++ ['"'])

end Protobuf.Escape

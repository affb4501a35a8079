import Protobuf.Source.Fault
import Protobuf.Source.Token

/-! Splitting text into tokens.

At each place the longest token is taken. A lexeme is found as its first character and the number of
characters that follow it, so lexemes cover the text by construction: between them lie blanks only.
A character that begins no token is a lexeme of its own without a token. Faults found inside a
lexeme are kept with it. -/
namespace Protobuf

/-- A piece of the text: its token if it is one, its place, and the faults found in it. -/
structure Lexeme where
  token : Option Token
  span : Span
  faults : List Fault
  deriving DecidableEq, Inhabited

namespace Lexer

/-- What is found at a place: a token, how many characters after the first belong to it, and its
faults. -/
structure Found where
  token : Option Token
  extra : Nat
  faults : List Fault
  deriving DecidableEq, Inhabited

/-! ### Character classes -/

/-- The characters between tokens. -/
def isBlank (c : Char) : Bool :=
  c == ' ' || (9 ≤ c.toNat && c.toNat ≤ 13)

def isLetter (c : Char) : Bool :=
  c.isAlpha || c == '_'

def isWordChar (c : Char) : Bool :=
  c.isAlphanum || c == '_'

/-- The value of a digit, letters counting from ten. -/
def digitValue (c : Char) : Nat :=
  if c.isDigit then c.toNat - '0'.toNat
  else if 'a' ≤ c ∧ c ≤ 'f' then c.toNat - 'a'.toNat + 10
  else if 'A' ≤ c ∧ c ≤ 'F' then c.toNat - 'A'.toNat + 10
  else 16

def isDigitOf (radix : Nat) (c : Char) : Bool :=
  digitValue c < radix

/-- The number that digits stand for. -/
def digitsValue (radix : Nat) (digits : List Char) : Nat :=
  digits.foldl (fun value c => value * radix + digitValue c) 0

/-! ### Numbers -/

/-- The length of an exponent in front of the text: a mark, an optional sign, and digits. -/
def exponentLength : List Char → Nat
  | mark :: rest =>
    if mark == 'e' || mark == 'E' then
      let signed := match rest with
        | sign :: _ => if sign == '+' || sign == '-' then 1 else 0
        | [] => 0
      let digits := ((rest.drop signed).takeWhile Char.isDigit).length
      if digits = 0 then 0 else 1 + signed + digits
    else 0
  | [] => 0

/-- The power of ten of an exponent. -/
def exponentValue : List Char → Int
  | _ :: '-' :: digits => -(digitsValue 10 digits : Int)
  | _ :: '+' :: digits => digitsValue 10 digits
  | _ :: digits => digitsValue 10 digits
  | [] => 0

/-- The float with these digits in front of the point, behind it, and this exponent. -/
def floatToken (whole fraction exponent : List Char) : Token :=
  let digits := digitsValue 10 (whole ++ fraction)
  let scale := exponentValue exponent - fraction.length
  .float (UInt64.ofNat (Binary.ofDecimal Binary.double digits scale))

/-- An integer must not run into a word. -/
def spaceFaults (start stop : Nat) (after : List Char) : List Fault :=
  match after with
  | c :: _ =>
    if isLetter c then [.missingSpace ⟨start, stop + (after.takeWhile isWordChar).length⟩] else []
  | [] => []

/-- The integer of `length` characters at `start`, with these digits. A digit that the radix does
not have, or a value of more than 64 bits, is a fault and makes it zero. -/
def intToken (start radix : Nat) (digits : List Char) (length : Nat) (after : List Char) : Found :=
  let value := digitsValue radix digits
  let fits := digits.all (isDigitOf radix) && value < 0x10000000000000000
  { token := some (.int (if fits then UInt64.ofNat value else 0))
    extra := length - 1
    faults := spaceFaults start (start + length) after ++
      if fits then [] else [.integerOutOfRange ⟨start, start + length⟩] }

/-- The number in front of the text, which begins with a digit or with a point and a digit. A number
that begins with zero and another octal digit is octal. -/
def number (start : Nat) (text : List Char) : Found :=
  let whole := text.takeWhile Char.isDigit
  let after := text.drop whole.length
  match after with
  | '.' :: behind =>
    let fraction := behind.takeWhile Char.isDigit
    let tail := behind.drop fraction.length
    let exponent := tail.take (exponentLength tail)
    { token := some (floatToken whole fraction exponent)
      extra := whole.length + fraction.length + exponent.length
      faults := [] }
  | _ =>
    let exponent := after.take (exponentLength after)
    if !exponent.isEmpty then
      ⟨some (floatToken whole [] exponent), whole.length + exponent.length - 1, []⟩
    else
      match whole, after with
      | ['0'], mark :: behind =>
        let hex := behind.takeWhile (isDigitOf 16)
        if (mark == 'x' || mark == 'X') && !hex.isEmpty then
          intToken start 16 hex (2 + hex.length) (behind.drop hex.length)
        else intToken start 10 whole 1 after
      | '0' :: second :: others, _ =>
        if isDigitOf 8 second then intToken start 8 (second :: others) whole.length after
        else intToken start 10 whole whole.length after
      | _, _ => intToken start 10 whole whole.length after

/-! ### Strings -/

/-- An escape: its bytes, how many characters follow the backslash, and, if it is none, how many
bytes of the text are at fault. -/
structure Escaped where
  bytes : Bytes
  extra : Nat
  faulty : Option Nat
  deriving DecidableEq, Inhabited

/-- An escape by code point, with exactly `length` hexadecimal digits. -/
def codePoint (length : Nat) (digits : List Char) : Escaped :=
  let found := (digits.take length).takeWhile (isDigitOf 16)
  let value := digitsValue 16 found
  if found.length ≠ length then ⟨[], 1 + found.length, some (2 + found.length)⟩
  else if value.isValidChar then ⟨Utf8.encodeChar (Char.ofNat value), 1 + length, none⟩
  else ⟨[], 1 + length, some (2 + length)⟩

/-- The byte of an escape with a single letter or sign. -/
def simpleEscape : Char → Option UInt8
  | 'a' => some 0x07
  | 'b' => some 0x08
  | 'f' => some 0x0C
  | 'n' => some 0x0A
  | 'r' => some 0x0D
  | 't' => some 0x09
  | 'v' => some 0x0B
  | '?' => some 0x3F
  | '\\' => some 0x5C
  | '\'' => some 0x27
  | '"' => some 0x22
  | _ => none

/-- The escape after a backslash. At an unknown one the backslash and one byte are at fault; further
bytes of that character are kept. -/
def escaped : List Char → Escaped
  | [] => ⟨[], 0, some 1⟩
  | c :: rest =>
    if c == 'x' || c == 'X' then
      let digits := (rest.take 2).takeWhile (isDigitOf 16)
      if digits.isEmpty then ⟨[], 1, some 2⟩
      else ⟨[UInt8.ofNat (digitsValue 16 digits)], 1 + digits.length, none⟩
    else if isDigitOf 8 c then
      let digits := ((c :: rest).take 3).takeWhile (isDigitOf 8)
      let value := digitsValue 8 digits
      if value < 256 then ⟨[UInt8.ofNat value], digits.length, none⟩
      else ⟨[], digits.length, some (1 + digits.length)⟩
    else if c == 'u' then codePoint 4 rest
    else if c == 'U' then codePoint 8 rest
    else
      match simpleEscape c with
      | some byte => ⟨[byte], 1, none⟩
      | none =>
        if c == '\n' then ⟨[], 0, some 1⟩ else ⟨(Utf8.encodeChar c).drop 1, 1, some 2⟩

/-- What follows an opening quote: the bytes of the string, the number of characters up to and
including its end, and its faults. -/
structure Body where
  bytes : Bytes
  length : Nat
  faults : List Fault
  deriving DecidableEq, Inhabited

/-- Puts a part in front of a string's remaining body. -/
def Body.cons (bytes : Bytes) (length : Nat) (faults : List Fault) (body : Body) : Body :=
  ⟨bytes ++ body.bytes, length + body.length, faults ++ body.faults⟩

/-- The body of the string that starts at `start`, read on from `pos`. It ends at its quote, or at
fault with the line or the text. -/
def stringBody (start : Nat) (quote : Char) (pos : Nat) (text : List Char) : Body :=
  match text with
  | [] => ⟨[], 0, [.unterminatedString ⟨start, pos⟩]⟩
  | c :: rest =>
    if c = quote then ⟨[], 1, []⟩
    else if c = '\n' then ⟨[], 1, [.unterminatedString ⟨start, pos⟩]⟩
    else if c = '\\' then
      let e := escaped rest
      let faults := match e.faulty with
        | some length => [.invalidEscape ⟨pos, pos + length⟩]
        | none => []
      (stringBody start quote (pos + 1 + byteLength (rest.take e.extra)) (rest.drop e.extra)).cons
        e.bytes (1 + e.extra) faults
    else if c = Char.ofNat 0 then
      (stringBody start quote (pos + 1) rest).cons [] 1 [.invalidStringCharacter ⟨pos, pos + 1⟩]
    else (stringBody start quote (pos + c.utf8Size) rest).cons (Utf8.encodeChar c) 1 []
termination_by text.length

def string (start : Nat) (quote : Char) (rest : List Char) : Found :=
  let body := stringBody start quote (start + 1) rest
  ⟨some (.string body.bytes), body.length, body.faults⟩

/-! ### Comments -/

/-- A comment up to the end of the line; carriage returns at its end do not count. -/
def lineComment (rest : List Char) : Found :=
  let text := rest.takeWhile (· != '\n')
  let trimmed := (text.reverse.dropWhile (· == '\r')).reverse
  ⟨some (.lineComment (String.ofList trimmed)), 1 + text.length, []⟩

/-- The number of characters in front of the end of a block comment. -/
def commentLength? : List Char → Option Nat
  | [] => none
  | '*' :: '/' :: _ => some 0
  | _ :: rest => (commentLength? rest).map (· + 1)

def blockComment (start : Nat) (rest : List Char) : Found :=
  match commentLength? rest with
  | some length => ⟨some (.blockComment (String.ofList (rest.take length))), 1 + length + 2, []⟩
  | none =>
    ⟨some (.blockComment (String.ofList rest)), 1 + rest.length,
      [.unterminatedComment ⟨start, start + 2 + byteLength rest⟩]⟩

/-! ### The text -/

/-- The word that begins with `c`. -/
def word (c : Char) (rest : List Char) : Found :=
  let others := rest.takeWhile isWordChar
  ⟨some (.ident (String.ofList (c :: others))), others.length, []⟩

/-- A character that begins no token. -/
def invalid (start : Nat) (c : Char) : Found :=
  ⟨none, 0, [.invalidToken ⟨start, start + c.utf8Size⟩]⟩

/-- The longest token at `start`, where `c` stands in front of `rest`. -/
def token (start : Nat) (c : Char) (rest : List Char) : Found :=
  if isLetter c then word c rest
  else if c.isDigit then number start (c :: rest)
  else if c == '.' && (rest.head?.any Char.isDigit) then number start (c :: rest)
  else if c == '"' || c == '\'' then string start c rest
  else if c == '/' then
    match rest with
    | '/' :: behind => lineComment behind
    | '*' :: behind => blockComment start behind
    | _ => invalid start c
  else
    match Punct.ofChar? c with
    | some sign => ⟨some (.punct sign), 0, []⟩
    | none => invalid start c

/-- The lexemes of a text that begins at the byte `pos`. -/
def scanFrom (pos : Nat) (text : List Char) : List Lexeme :=
  match text with
  | [] => []
  | c :: rest =>
    if isBlank c then scanFrom (pos + c.utf8Size) rest
    else
      let found := token pos c rest
      let stop := pos + byteLength (c :: rest.take found.extra)
      ⟨found.token, ⟨pos, stop⟩, found.faults⟩ :: scanFrom stop (rest.drop found.extra)
termination_by text.length

/-- The lexemes of a source text, in order. -/
def scan (text : String) : List Lexeme :=
  scanFrom 0 text.toList

end Lexer

end Protobuf

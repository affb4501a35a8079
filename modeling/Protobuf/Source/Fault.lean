import Protobuf.Source.Diagnostic

/-! Faults of schema text.

A fault is a cause and the place where it shows. Lexical faults are about single tokens; they
usually lead to the others, so a report puts them first. Apart from that a report follows the text,
and a fault without a place, which is about the end of the text, all of it or the parser itself,
comes before those that have one. -/
namespace Protobuf

inductive Fault where
  | invalidToken (span : Span)
  | integerOutOfRange (span : Span)
  | invalidStringCharacter (span : Span)
  | unterminatedString (span : Span)
  | invalidEscape (span : Span)
  | invalidUtf8 (span : Span)
  | unterminatedComment (span : Span)
  | missingSpace (span : Span)
  | unknownEdition (name : String) (span : Span)
  | duplicatePackage (first second : Span)
  | unexpectedToken (expected found : String) (span : Span)
  | unexpectedEnd (expected : String)
  | missingLabel (span : Span)
  | requiredField (span : Span)
  | defaultValue (span : Span)
  | unsupported (feature : String) (span : Span)
  | fileTooLarge
  /-- The parser breaks a rule of its own, which no text leads to. -/
  | internal (reason : String)
  deriving DecidableEq, Repr, Inhabited

namespace Fault

/-- The place a fault is found at. -/
def span? : Fault → Option Span
  | invalidToken span | integerOutOfRange span | invalidStringCharacter span
  | unterminatedString span | invalidEscape span | invalidUtf8 span | unterminatedComment span
  | missingSpace span | unknownEdition _ span | unexpectedToken _ _ span | missingLabel span
  | requiredField span | defaultValue span | unsupported _ span => some span
  | duplicatePackage _ second => some second
  | unexpectedEnd _ | fileTooLarge | internal _ => none

/-- Whether a fault is about a single token. -/
def isLexical : Fault → Bool
  | invalidToken _ | integerOutOfRange _ | invalidStringCharacter _ | unterminatedString _
  | invalidEscape _ | invalidUtf8 _ | unterminatedComment _ | missingSpace _ => true
  | _ => false

def message : Fault → String
  | invalidToken _ => "invalid token"
  | integerOutOfRange _ => "integer is too large"
  | invalidStringCharacter _ => "invalid string character"
  | unterminatedString _ => "unterminated string"
  | invalidEscape _ => "invalid string escape"
  | invalidUtf8 _ => "string is not valid utf-8"
  | unterminatedComment _ => "unterminated block comment"
  | missingSpace _ => "whitespace is required between an integer literal and an identifier"
  | unknownEdition name _ => "unknown syntax '" ++ name ++ "'"
  | duplicatePackage _ _ => "multiple package names specified"
  | unexpectedToken expected found _ => "expected " ++ expected ++ ", but found '" ++ found ++ "'"
  | unexpectedEnd expected => "expected " ++ expected ++ ", but reached end of file"
  | missingLabel _ =>
    "fields must have a label with proto2 syntax " ++
      "(expected one of 'optional', 'repeated' or 'required')"
  | requiredField _ => "required fields are not allowed in proto3 syntax"
  | defaultValue _ => "default values are not allowed in proto3"
  | unsupported feature _ => feature ++ " are not supported"
  | fileTooLarge => "file is too large"
  | internal reason => "internal error: " ++ reason

def help : Fault → Option String
  | unknownEdition _ _ => some "possible values are 'proto2' and 'proto3'"
  | unsupported _ _ => some "only messages, enums and scalar fields can be compiled"
  | fileTooLarge => some "the maximum file length is 2,147,483,647 bytes"
  | _ => none

def labels : Fault → List Label
  | invalidToken span => [⟨"found here", span⟩]
  | integerOutOfRange span => [⟨"integer defined here", span⟩]
  | invalidStringCharacter span => [⟨"invalid characters", span⟩]
  | unterminatedString span => [⟨"string starts here", span⟩]
  | invalidEscape span => [⟨"defined here", span⟩]
  | invalidUtf8 span => [⟨"defined here", span⟩]
  | unterminatedComment span => [⟨"comment starts here", span⟩]
  | missingSpace span => [⟨"found here", span⟩]
  | unknownEdition _ span => [⟨"defined here", span⟩]
  | duplicatePackage first second => [⟨"defined here…", first⟩, ⟨"…and again here", second⟩]
  | unexpectedToken _ _ span => [⟨"found here", span⟩]
  | unexpectedEnd _ | fileTooLarge | internal _ => []
  | missingLabel span => [⟨"field defined here", span⟩]
  | requiredField span => [⟨"defined here", span⟩]
  | defaultValue span => [⟨"defined here", span⟩]
  | unsupported _ span => [⟨"found here", span⟩]

def diagnostic (f : Fault) : Diagnostic :=
  ⟨f.message, f.help, f.labels⟩

/-- The order of a report. -/
def le (a b : Fault) : Bool :=
  if a.isLexical != b.isLexical then a.isLexical
  else
    match a.span?, b.span? with
    | none, _ => true
    | some _, none => false
    | some x, some y => x.start ≤ y.start

end Fault

/-- All faults of one file. -/
abbrev SourceError := Report Fault

namespace SourceError

/-- The report on a file with these faults, if it has any. -/
def ofFaults? (file text : String) (faults : List Fault) : Option SourceError :=
  Report.ofSorted? file text (fun f => f.span?.map (·.start)) (faults.mergeSort Fault.le)

/-- Whether the first fault is about a single token. -/
def isLexical (e : SourceError) : Bool :=
  e.first.isLexical

end SourceError

end Protobuf

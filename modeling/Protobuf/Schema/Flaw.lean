import Protobuf.Source.Diagnostic

/-! Flaws of declarations.

What can be wrong with files that parse: names that clash or lead nowhere, numbers that may not be
used, options that do not fit. -/
namespace Protobuf

inductive Flaw where
  | duplicateName (name : String) (first second : Span)
  | duplicateNameInImport (name firstFile : String) (second : Span)
  | invalidFieldNumber (field number : String) (span : Span)
  | duplicateFieldNumber (message : String) (number : Nat) (firstField secondField : String)
      (first second : Span)
  | duplicateFieldName (message name : String) (first second : Span)
  | conflictingIdent (what scope ident firstName secondName : String) (first second : Span)
  | reservedFieldNumber (field : String) (number : Nat) (span reserved : Span)
  | reservedFieldName (message name : String) (span reserved : Span)
  | invalidPackedOption (field : String) (span : Span)
  | invalidDefault (field reason : String) (span : Span)
  | emptyEnum (name : String) (span : Span)
  | enumValueOutOfRange (name : String) (span : Span)
  | duplicateEnumValue (enumName : String) (number : Int) (firstName secondName : String)
      (first second : Span)
  | nonzeroFirstValue (name : String) (span : Span)
  | reservedEnumValue (enumName name what : String) (span reserved : Span)
  | unresolvedType (field name : String) (span : Span) (hint : Option String)
  deriving DecidableEq, Repr, Inhabited

namespace Flaw

/-- The place a flaw is found at; of two clashing declarations, that of the later one. -/
def span : Flaw → Span
  | duplicateName _ _ span | duplicateNameInImport _ _ span | invalidFieldNumber _ _ span
  | duplicateFieldNumber _ _ _ _ _ span | duplicateFieldName _ _ _ span
  | conflictingIdent _ _ _ _ _ _ span | reservedFieldNumber _ _ span _
  | reservedFieldName _ _ span _ | invalidPackedOption _ span | invalidDefault _ _ span
  | emptyEnum _ span | enumValueOutOfRange _ span | duplicateEnumValue _ _ _ _ _ span
  | nonzeroFirstValue _ span | reservedEnumValue _ _ _ span _ | unresolvedType _ _ span _ => span

def message : Flaw → String
  | duplicateName name _ _ => "name '" ++ name ++ "' is defined twice"
  | duplicateNameInImport name firstFile _ =>
    "name '" ++ name ++ "' is already defined in '" ++ firstFile ++ "'"
  | invalidFieldNumber field number _ =>
    "invalid number " ++ number ++ " for field '" ++ field ++ "'"
  | duplicateFieldNumber message number firstField secondField _ _ =>
    "field number " ++ number.repr ++ " is used by both '" ++ firstField ++ "' and '" ++
      secondField ++ "' in message '" ++ message ++ "'"
  | duplicateFieldName message name _ _ =>
    "field name '" ++ name ++ "' is defined twice in message '" ++ message ++ "'"
  | conflictingIdent what scope ident firstName secondName _ _ =>
    what ++ " '" ++ secondName ++ "' conflicts with '" ++ firstName ++ "' in '" ++ scope ++
      "': both are named '" ++ ident ++ "' in generated code"
  | reservedFieldNumber field number _ _ =>
    "field '" ++ field ++ "' uses reserved number " ++ number.repr
  | reservedFieldName message name _ _ =>
    "field name '" ++ name ++ "' is reserved in message '" ++ message ++ "'"
  | invalidPackedOption field _ => "invalid 'packed' option on field '" ++ field ++ "'"
  | invalidDefault field reason _ =>
    "invalid default value for field '" ++ field ++ "': " ++ reason
  | emptyEnum name _ => "enum '" ++ name ++ "' must have at least one value"
  | enumValueOutOfRange name _ => "value of enum variant '" ++ name ++ "' is out of range"
  | duplicateEnumValue enumName number firstName secondName _ _ =>
    "enum value " ++ number.repr ++ " is used by both '" ++ firstName ++ "' and '" ++ secondName ++
      "' in enum '" ++ enumName ++ "'"
  | nonzeroFirstValue name _ =>
    "the first value of enum '" ++ name ++ "' must be zero in proto3 files"
  | reservedEnumValue enumName name what _ _ =>
    "enum variant '" ++ name ++ "' uses a reserved " ++ what ++ " in enum '" ++ enumName ++ "'"
  | unresolvedType field name _ _ =>
    "type '" ++ name ++ "' of field '" ++ field ++ "' is not defined"

def help : Flaw → Option String
  | invalidFieldNumber _ _ _ =>
    some "field numbers must be between 1 and 536,870,911, excluding the range 19,000 to 19,999"
  | conflictingIdent _ _ _ _ _ _ _ => some "rename one of them"
  | invalidPackedOption _ _ =>
    some "'packed' must be 'true' or 'false', and may only be set on repeated scalar or enum fields"
  | enumValueOutOfRange _ _ => some "enum values must fit in a 32-bit signed integer"
  | duplicateEnumValue _ _ _ _ _ _ => some "set 'option allow_alias = true;' to allow aliases"
  | unresolvedType _ _ _ hint => hint
  | _ => none

def labels : Flaw → List Label
  | duplicateName _ first second | duplicateFieldName _ _ first second
  | conflictingIdent _ _ _ _ _ first second =>
    [⟨"first defined here…", first⟩, ⟨"…and again here", second⟩]
  | duplicateFieldNumber _ _ _ _ first second | duplicateEnumValue _ _ _ _ first second =>
    [⟨"first used here…", first⟩, ⟨"…and again here", second⟩]
  | reservedFieldNumber _ _ span reserved | reservedFieldName _ _ span reserved
  | reservedEnumValue _ _ _ span reserved =>
    [⟨"defined here", span⟩, ⟨"reserved here", reserved⟩]
  | unresolvedType _ _ span _ => [⟨"used here", span⟩]
  | duplicateNameInImport _ _ span | invalidFieldNumber _ _ span | invalidPackedOption _ span
  | invalidDefault _ _ span | emptyEnum _ span | enumValueOutOfRange _ span
  | nonzeroFirstValue _ span => [⟨"defined here", span⟩]

def diagnostic (f : Flaw) : Diagnostic :=
  ⟨f.message, f.help, f.labels⟩

/-- The order of a report: by place. -/
def le (a b : Flaw) : Bool :=
  a.span.start ≤ b.span.start

end Flaw

/-- All flaws of one file. -/
abbrev SchemaError := Report Flaw

/-- The report on a file with these flaws, if it has any. -/
def SchemaError.ofFlaws? (file text : String) (flaws : List Flaw) : Option SchemaError :=
  Report.ofSorted? file text (fun f => some f.span.start) (flaws.mergeSort Flaw.le)

end Protobuf

import Protobuf.Source.Parser

/-! The grammar of schema files.

One parser for each kind of declaration. Faults inside a declaration usually end it; reading then
goes on at the next word that can begin a top-level statement, so that one run finds the faults of
the whole file. Services are passed over; extensions, oneofs, groups and map fields are reported and
passed over. -/
namespace Protobuf.Grammar
open Decl Protobuf.Parser

/-! ### Names and literals -/

def ident : Parser Ident := do
  match ← peek with
  | some ⟨.ident name, span⟩ =>
    advance ⟨.ident name, span⟩
    return ⟨name, span⟩
  | _ => unexpected "an identifier"

/-- The rest of a dotted name after its first part. -/
def dottedFrom (first : Ident) : Parser Dotted :=
  loop (fun (d : Dotted) => do
    if ← accept .dot then
      let part ← ident
      return .again ⟨d.first, d.others ++ [part]⟩
    else return .done d) ⟨first, []⟩

def dotted : Parser Dotted := do
  dottedFrom (← ident)

def typeRef : Parser TypeRef := do
  match ← peek with
  | some ⟨.punct .dot, span⟩ =>
    advance ⟨.punct .dot, span⟩
    return ⟨some span, ← dotted⟩
  | some ⟨.ident _, _⟩ => return ⟨none, ← dotted⟩
  | _ => unexpected "a type name"

/-- A string that is meant to be text. Bytes that are none are reported and replaced. -/
def string : Parser (String × Span) := do
  match ← peek with
  | some ⟨.string bytes, span⟩ =>
    advance ⟨.string bytes, span⟩
    match Utf8.decode? bytes with
    | some text => return (text, span)
    | none =>
      report (.invalidUtf8 span)
      return (String.ofList (Utf8.decodeLossy bytes), span)
  | _ => unexpected "a string literal"

def positiveInt : Parser IntLit := do
  match ← peek with
  | some ⟨.int value, span⟩ =>
    advance ⟨.int value, span⟩
    return ⟨false, value, span⟩
  | _ => unexpected "a positive integer"

/-- The magnitude of an integer whose sign, if it has one, was read. -/
def intAfter (minus : Option Span) : Parser IntLit := do
  match ← peek with
  | some ⟨.int value, span⟩ =>
    advance ⟨.int value, span⟩
    return match minus with
      | some start => ⟨true, value, start.join span⟩
      | none => ⟨false, value, span⟩
  | _ => unexpected "an integer"

def int : Parser IntLit := do
  match ← peek with
  | some ⟨.punct .minus, span⟩ =>
    advance ⟨.punct .minus, span⟩
    intAfter (some span)
  | _ => intAfter none

/-! ### Options -/

/-- A number after its sign. -/
def signedNumber (negative : Bool) : Parser (Constant × Span) := do
  let withSign (magnitude : Nat) : Constant :=
    .float (UInt64.ofNat (Binary.double.withSign negative magnitude))
  match ← peek with
  | some ⟨.int value, span⟩ =>
    advance ⟨.int value, span⟩
    return (.int negative value, span)
  | some ⟨.float bits, span⟩ =>
    advance ⟨.float bits, span⟩
    return (withSign bits.toNat, span)
  | some ⟨.ident "inf", span⟩ =>
    advance ⟨.ident "inf", span⟩
    return (withSign Binary.double.infinity, span)
  | some ⟨.ident "nan", span⟩ =>
    advance ⟨.ident "nan", span⟩
    return (.float (UInt64.ofNat Binary.double.quietNan), span)
  | _ => unexpected "a numeric literal"

/-- The constant that a dotted name stands for. -/
def wordConstant (name : String) : Constant :=
  if name = "true" then .bool true
  else if name = "false" then .bool false
  else if name = "inf" then .float (UInt64.ofNat Binary.double.infinity)
  else if name = "nan" then .float (UInt64.ofNat Binary.double.quietNan)
  else .ident name

def constant : Parser (Constant × Span) := do
  match ← peek with
  | some ⟨.ident _, _⟩ =>
    let name ← dotted
    return (wordConstant name.text, name.span)
  | some ⟨.punct .plus, start⟩ =>
    advance ⟨.punct .plus, start⟩
    let (value, span) ← signedNumber false
    return (value, start.join span)
  | some ⟨.punct .minus, start⟩ =>
    advance ⟨.punct .minus, start⟩
    let (value, span) ← signedNumber true
    return (value, start.join span)
  | some ⟨.int _, _⟩ => signedNumber false
  | some ⟨.float _, _⟩ => signedNumber false
  | some ⟨.string bytes, span⟩ =>
    advance ⟨.string bytes, span⟩
    return (.string bytes, span)
  | _ => unexpected "a constant"

/-- A part of an option's name: a word, or a type name in parentheses. -/
def settingPart : Parser (String × Span) := do
  match ← peek with
  | some ⟨.punct .leftParen, start⟩ =>
    advance ⟨.punct .leftParen, start⟩
    let type ← typeRef
    let stop ← sign .rightParen
    return ("(" ++ type.text ++ ")", start.join stop)
  | some ⟨.ident name, span⟩ =>
    advance ⟨.ident name, span⟩
    return (name, span)
  | _ => unexpected "an identifier or '('"

/-- The rest of an option's name and the equals sign after it. -/
def settingNameFrom (first : String × Span) : Parser (String × Span) :=
  loop (fun (name, span) => do
    match ← peek with
    | some ⟨.punct .dot, dot⟩ =>
      advance ⟨.punct .dot, dot⟩
      let (part, partSpan) ← settingPart
      return .again (name ++ "." ++ part, span.join partSpan)
    | some ⟨.punct .equals, equals⟩ =>
      advance ⟨.punct .equals, equals⟩
      return .done (name, span)
    | _ => unexpected "'.' or '='") first

/-- The name of an option and the equals sign after it. -/
def settingName : Parser (String × Span) := do
  settingNameFrom (← settingPart)

/-- A name, an equals sign and a constant. -/
def setting : Parser Setting := do
  let (name, nameSpan) ← settingName
  let (value, valueSpan) ← constant
  return ⟨name, nameSpan, value, valueSpan⟩

/-- An option as a statement. -/
def settingStatement : Parser Setting := do
  let _ ← keyword "option"
  let result ← setting
  let _ ← sign .semicolon
  return result

/-- What comes after an option of a list: another one, or the bracket that closes the list. -/
def settingListRound (list : List Setting) : Parser (Turn (List Setting) (List Setting)) := do
  match ← peek with
  | some ⟨.punct .comma, span⟩ =>
    advance ⟨.punct .comma, span⟩
    let next ← setting
    return .again (list ++ [next])
  | some ⟨.punct .rightBracket, span⟩ =>
    advance ⟨.punct .rightBracket, span⟩
    return .done list
  | _ => unexpected "',' or ']'"

/-- The rest of a list of options and the bracket after it. -/
def settingListFrom (first : Setting) : Parser (List Setting) :=
  loop settingListRound [first]

/-- Options in brackets. -/
def settingList : Parser (List Setting) := do
  let _ ← sign .leftBracket
  settingListFrom (← setting)

/-! ### Reserved numbers and names -/

/-- The last number of a range. -/
def rangeLast : Parser RangeEnd := do
  match ← peek with
  | some ⟨.ident "max", span⟩ =>
    advance ⟨.ident "max", span⟩
    return .max
  | _ => return .upTo (← int)

def reservedRange : Parser ReservedRange := do
  let first ← int
  match ← peek with
  | some ⟨.ident "to", span⟩ =>
    advance ⟨.ident "to", span⟩
    return ⟨first, ← rangeLast⟩
  | some ⟨.punct .comma, _⟩ => return ⟨first, .single⟩
  | some ⟨.punct .semicolon, _⟩ => return ⟨first, .single⟩
  | _ => unexpected "'to', ',' or ';'"

/-- One or more items with commas between them. -/
def commaList (item : Parser α) : Parser (List α) :=
  loop (fun (list : List α) => do
    let next ← item
    if ← accept .comma then return .again (list ++ [next])
    else return .done (list ++ [next])) []

def reservedName : Parser Ident := do
  let (name, span) ← string
  return ⟨name, span⟩

def reservedItems : Parser ReservedItems := do
  match ← peek with
  | some ⟨.int _, _⟩ => return .ranges (← commaList reservedRange)
  | some ⟨.punct .minus, _⟩ => return .ranges (← commaList reservedRange)
  | some ⟨.string _, _⟩ => return .names (← commaList reservedName)
  | _ => unexpected "a positive integer or string"

def reserved : Parser Reserved := do
  let start ← keyword "reserved"
  let items ← reservedItems
  let stop ← sign .semicolon
  return ⟨items, start.join stop⟩

/-! ### Enums -/

/-- The options of a value, if it has any. -/
def enumValueSettings : Parser (List Setting) := do
  match ← peek with
  | some ⟨.punct .semicolon, _⟩ => return []
  | some ⟨.punct .leftBracket, _⟩ => settingList
  | _ => unexpected "';' or '['"

def enumValue : Parser Decl.EnumValue := do
  let name ← ident
  let _ ← sign .equals
  let number ← int
  let settings ← enumValueSettings
  let stop ← sign .semicolon
  return ⟨name, number, settings, name.span.join stop⟩

/-- One part of the body of an enum, or its closing brace. -/
def enumRound (start : Span) (e : Decl.Enum) : Parser (Turn Decl.Enum Decl.Enum) := do
  match ← peek with
  | some ⟨.ident "option", _⟩ =>
    let s ← settingStatement
    return .again { e with settings := e.settings ++ [s] }
  | some ⟨.ident "reserved", _⟩ =>
    let r ← reserved
    return .again { e with reserved := e.reserved ++ [r] }
  | some ⟨.punct .semicolon, span⟩ =>
    advance ⟨.punct .semicolon, span⟩
    return .again e
  | some ⟨.ident _, _⟩ =>
    let v ← enumValue
    return .again { e with values := e.values ++ [v] }
  | some ⟨.punct .rightBrace, span⟩ =>
    advance ⟨.punct .rightBrace, span⟩
    return .done { e with span := start.join span }
  | _ => unexpected "an identifier, '\x7d', ';', 'reserved' or 'option'"

/-- The body of an enum, up to and including its closing brace. -/
def enumBody (start : Span) (name : Ident) : Parser Decl.Enum :=
  loop (enumRound start) ⟨name, [], [], [], start⟩

def enum : Parser Decl.Enum := do
  let start ← keyword "enum"
  let name ← ident
  let _ ← sign .leftBrace
  enumBody start name

/-! ### Messages -/

/-- The rest of a type that starts with the word `map`. It is a name, unless an angle bracket
follows. -/
def typeAfterMap (span : Span) : Parser (TypeExpr × Span) := do
  match ← peek with
  | some ⟨.punct .leftAngle, _⟩ =>
    report (.unsupported "map fields" span)
    fail
  | _ =>
    let name ← dottedFrom ⟨"map", span⟩
    return (.named ⟨none, name⟩, name.span)

/-- The type of a field. -/
def fieldType : Parser (TypeExpr × Span) := do
  match ← peek with
  | some ⟨.ident "map", span⟩ =>
    advance ⟨.ident "map", span⟩
    typeAfterMap span
  | some ⟨.ident word, span⟩ =>
    match Scalar.ofName? word with
    | some scalar =>
      advance ⟨.ident word, span⟩
      return (.scalar scalar, span)
    | none =>
      let type ← typeRef
      return (.named type, type.span)
  | some ⟨.punct .dot, _⟩ =>
    let type ← typeRef
    return (.named type, type.span)
  | _ => unexpected "a field type"

/-- The label of a field, if it has one, and where the field starts. -/
def fieldLabel : Parser (Option FieldLabel × Span) := do
  match ← peek with
  | some ⟨.ident "optional", span⟩ =>
    advance ⟨.ident "optional", span⟩
    return (some .optional, span)
  | some ⟨.ident "required", span⟩ =>
    advance ⟨.ident "required", span⟩
    return (some .required, span)
  | some ⟨.ident "repeated", span⟩ =>
    advance ⟨.ident "repeated", span⟩
    return (some .repeated, span)
  | some ⟨.ident _, span⟩ => return (none, span)
  | some ⟨.punct .dot, span⟩ => return (none, span)
  | _ => unexpected "a message field"

/-- The options of a field and its end. -/
def fieldEnd (type : TypeExpr) : Parser (List Setting × Span) := do
  match ← peek with
  | some ⟨.punct .leftBracket, _⟩ =>
    let settings ← settingList
    return (settings, ← sign .semicolon)
  | some ⟨.punct .semicolon, span⟩ =>
    advance ⟨.punct .semicolon, span⟩
    return ([], span)
  | some ⟨.punct .leftBrace, span⟩ =>
    if type.isGroup then
      report (.unsupported "groups" span)
      skipBlock
      fail
    else unexpected "';' or '['"
  | _ => unexpected "';' or '['"

/-- What the language level has against a field. -/
def fieldFaults (edition : Edition) (f : Decl.Field) : List Fault :=
  match edition with
  | .proto2 => if f.label.isNone then [.missingLabel f.span] else []
  | .proto3 =>
    (if f.label = some .required then [.requiredField f.span] else []) ++
      match f.default? with
      | some s => [.defaultValue (s.nameSpan.join s.valueSpan)]
      | none => []

def reportAll (faults : List Fault) : Parser Unit := fun c =>
  (some (), { c with faults := c.faults ++ faults })

/-- A field after its label. -/
def fieldAfter (edition : Edition) (label : Option FieldLabel) (start : Span) :
    Parser Decl.Field := do
  let (type, typeSpan) ← fieldType
  let name ← ident
  let _ ← sign .equals
  let number ← positiveInt
  let (settings, stop) ← fieldEnd type
  let f : Decl.Field := ⟨label, type, typeSpan, name, number, settings, start.join stop⟩
  reportAll (fieldFaults edition f)
  return f

def field (edition : Edition) : Parser Decl.Field := do
  let (label, start) ← fieldLabel
  fieldAfter edition label start

/-- One part of the body of a message, or its closing brace; `nested` reads the messages in it. -/
def messageRound (edition : Edition) (nested : Parser Decl.Message) (start : Span)
    (m : Decl.Message) : Parser (Turn Decl.Message Decl.Message) := do
  match ← peek with
  | some ⟨.punct .rightBrace, span⟩ =>
    advance ⟨.punct .rightBrace, span⟩
    return .done { m with span := start.join span }
  | some ⟨.punct .semicolon, span⟩ =>
    advance ⟨.punct .semicolon, span⟩
    return .again m
  | some ⟨.ident "message", _⟩ =>
    let inner ← nested
    return .again { m with messages := m.messages ++ [inner] }
  | some ⟨.ident "enum", _⟩ =>
    let e ← enum
    return .again { m with enums := m.enums ++ [e] }
  | some ⟨.ident "option", _⟩ =>
    let s ← settingStatement
    return .again { m with settings := m.settings ++ [s] }
  | some ⟨.ident "reserved", _⟩ =>
    let r ← reserved
    return .again { m with reserved := m.reserved ++ [r] }
  | some ⟨.ident "oneof", span⟩ =>
    report (.unsupported "oneofs" span)
    skipBlock
    return .again m
  | some ⟨.ident "extend", span⟩ =>
    report (.unsupported "extensions" span)
    skipBlock
    return .again m
  | some ⟨.ident "extensions", span⟩ =>
    report (.unsupported "extension ranges" span)
    skipTo [.punct .semicolon, .punct .rightBrace]
    let _ ← accept .semicolon
    return .again m
  | some ⟨.ident _, _⟩ =>
    let f ← field edition
    return .again { m with fields := m.fields ++ [f] }
  | some ⟨.punct .dot, _⟩ =>
    let f ← field edition
    return .again { m with fields := m.fields ++ [f] }
  | _ => unexpected "a message field, reserved range, enum, message, option or '\x7d'"

/-- The body of a message, up to and including its closing brace. -/
def messageBody (edition : Edition) (nested : Parser Decl.Message) (start : Span) (name : Ident) :
    Parser Decl.Message :=
  loop (messageRound edition nested start) ⟨name, [], [], [], [], [], start⟩

/-- A message with fewer than so many levels of messages in it. -/
def messageUpTo (edition : Edition) : (depth : Nat) → Parser Decl.Message
  | 0 => impossible "messages are nested deeper than there are words"
  | depth + 1 => do
    let start ← keyword "message"
    let name ← ident
    let _ ← sign .leftBrace
    messageBody edition (messageUpTo edition depth) start name

/-- A message. Each level of nesting takes words, so their number bounds the levels. -/
def message (edition : Edition) : Parser Decl.Message := fun c =>
  messageUpTo edition c.limit c

/-! ### Files -/

def package : Parser Package := do
  let start ← keyword "package"
  let name ← dotted
  let stop ← sign .semicolon
  return ⟨name, start.join stop⟩

def importKind : Parser ImportKind := do
  match ← peek with
  | some ⟨.ident "weak", span⟩ =>
    advance ⟨.ident "weak", span⟩
    return .weak
  | some ⟨.ident "public", span⟩ =>
    advance ⟨.ident "public", span⟩
    return .passedOn
  | some ⟨.string _, _⟩ => return .plain
  | _ => unexpected "a string literal, 'public' or 'weak'"

def importStatement : Parser Import := do
  let start ← keyword "import"
  let kind ← importKind
  let (value, valueSpan) ← string
  let stop ← sign .semicolon
  return ⟨kind, value, valueSpan, start.join stop⟩

def service : Parser Unit := do
  let _ ← keyword "service"
  let _ ← ident
  skipBlock

/-- The language level with this name. -/
def levelNamed (name : String) (span : Span) : Parser Edition :=
  if name = "proto2" then pure .proto2
  else if name = "proto3" then pure .proto3
  else do
    report (.unknownEdition name span)
    fail

/-- The language level at the head of a file. -/
def edition : Parser Edition := do
  let _ ← keyword "syntax"
  let _ ← sign .equals
  let (name, span) ← string
  let level ← levelNamed name span
  let _ ← sign .semicolon
  return level

/-- The words at which reading goes on after a fault. -/
def statementWords : List Token :=
  ["enum", "extend", "import", "message", "option", "service", "package"].map .ident

/-- Adds the package of a file, which may be given once. -/
def addPackage (file : File) (p : Package) : Parser File := do
  match file.package with
  | some first =>
    report (.duplicatePackage first.span p.span)
    return file
  | none => return { file with package := some p }

/-- Reads one statement into a file, unless the text has ended. -/
def statement (file : File) : Parser (Turn File File) := do
  match ← peek with
  | none => return .done file
  | some ⟨.punct .semicolon, span⟩ =>
    advance ⟨.punct .semicolon, span⟩
    return .again file
  | some ⟨.ident "import", _⟩ =>
    let i ← importStatement
    return .again { file with imports := file.imports ++ [i] }
  | some ⟨.ident "package", _⟩ =>
    let p ← package
    return .again (← addPackage file p)
  | some ⟨.ident "option", _⟩ =>
    let s ← settingStatement
    return .again { file with settings := file.settings ++ [s] }
  | some ⟨.ident "message", _⟩ =>
    let m ← message file.edition
    return .again { file with messages := file.messages ++ [m] }
  | some ⟨.ident "enum", _⟩ =>
    let e ← enum
    return .again { file with enums := file.enums ++ [e] }
  | some ⟨.ident "service", _⟩ =>
    service
    return .again file
  | some ⟨.ident "extend", span⟩ =>
    report (.unsupported "extensions" span)
    skipBlock
    return .again file
  | _ => unexpected "'enum', 'extend', 'import', 'message', 'option', 'service', 'package' or ';'"

/-- The language level, which is the older one if the file does not declare it. -/
def editionOrDefault : Parser Edition := do
  match ← peek with
  | some ⟨.ident "syntax", _⟩ =>
    match ← recover edition with
    | some level => return level
    | none =>
      skipTo statementWords
      return .proto2
  | _ => return .proto2

/-- Reads one statement into a file. After one with a fault, reading goes on at the next. -/
def statementOrSkip (f : File) : Parser (Turn File File) := do
  match ← recover (statement f) with
  | some turn => return turn
  | none =>
    skipTo statementWords
    return .again f

/-- A whole file. -/
def file : Parser File := do
  let level ← editionOrDefault
  loop statementOrSkip (File.empty level)

/-- The most bytes that a text may have. -/
def maxSize : Nat :=
  2147483647

/-- What reading a text gives: its declarations, and all its faults. A text that is too large is not
read. -/
def read (text : String) : Option File × List Fault :=
  if maxSize < text.utf8ByteSize then (none, [.fileTooLarge])
  else
    let (result, c) := file (.start text)
    (result, c.faults)

/-- The declarations of a text, if it has no faults. -/
def parse (name text : String) : Except SourceError File :=
  match read text with
  | (result, faults) =>
    match SourceError.ofFaults? name text faults with
    | some e => .error e
    | none => .ok (result.getD (File.empty .proto2))

end Protobuf.Grammar

import Mathlib.Computability.Language
import Mathlib.Order.FixedPoints
import Mathlib.Order.CompletePartialOrder
import Protobuf.Source.Grammar

/-! The phrases of schema text.

A phrase is a sequence of tokens, without comments. Each kind of phrase is a language, given by
sums, products and repetitions of smaller ones. Only messages are recursive, since they may be
nested.

Keywords are ordinary identifiers, so a few phrases must not start with some of them: the value of
an enum does not look like a statement, and a field neither like another part of a message nor, if
it has no label, like one that has. -/
namespace Protobuf.Phrase
open Decl
open scoped Computability

/-! ### Tokens -/

def sign (p : Punct) : Language Token :=
  {[.punct p]}

def keyword (name : String) : Language Token :=
  {[.ident name]}

def ident : Language Token :=
  {w | ∃ name, w = [.ident name]}

def unsigned : Language Token :=
  {w | ∃ value, w = [.int value]}

def float : Language Token :=
  {w | ∃ bits, w = [.float bits]}

/-- A string of any bytes. -/
def bytes : Language Token :=
  {w | ∃ content, w = [.string content]}

/-- A string that is valid text with some property. -/
def textThat (property : String → Prop) : Language Token :=
  {w | ∃ content value, Utf8.decode? content = some value ∧ property value ∧ w = [.string content]}

/-- A string that is valid text. -/
def text : Language Token :=
  textThat fun _ => True

/-- Phrases whose first token is one of these words. -/
def startingWith (names : Set String) : Language Token :=
  {w | ∃ name ∈ names, w.head? = some (.ident name)}

theorem notMem_startingWith {names : Set String} {w : List Token} {t : Token}
    (h : w.head? = some t) (ht : ∀ word ∈ names, t ≠ .ident word) : w ∉ startingWith names := by
  intro hmem
  obtain ⟨word, hword, hhead⟩ := hmem
  exact ht word hword (Option.some.inj (h.symm.trans hhead))

theorem notMem_startingWith_of_ident {names : Set String} {w : List Token} {word : String}
    (h : w.head? = some (.ident word)) (hword : word ∉ names) : w ∉ startingWith names := by
  refine notMem_startingWith h fun name hname heq => hword ?_
  cases heq
  exact hname

/-- One or more phrases with commas between them. -/
def commaList (item : Language Token) : Language Token :=
  item * (sign .comma * item)∗

/-- A list may as well be taken apart after its commas. -/
theorem commaList_eq (item : Language Token) :
    commaList item = (item * sign .comma)∗ * item := by
  apply le_antisymm
  · refine mul_kstar_le (le_mul_of_one_le_left' one_le_kstar) ?_
    calc (item * sign .comma)∗ * item * (sign .comma * item)
        = (item * sign .comma)∗ * (item * sign .comma) * item := by simp only [mul_assoc]
      _ ≤ (item * sign .comma)∗ * item := mul_le_mul_left kstar_mul_le_kstar _
  · refine kstar_mul_le (le_mul_of_one_le_right' one_le_kstar) ?_
    calc item * sign .comma * (item * (sign .comma * item)∗)
        = item * (sign .comma * item * (sign .comma * item)∗) := by simp only [mul_assoc]
      _ ≤ item * (sign .comma * item)∗ := mul_le_mul_right mul_kstar_le_kstar _

/-! ### Names, numbers and options -/

def dotted : Language Token :=
  ident * (sign .dot * ident)∗

theorem head?_of_mem_dotted {w : List Token} (h : w ∈ dotted) :
    ∃ name, w.head? = some (.ident name) := by
  obtain ⟨u, ⟨name, rfl⟩, v, _, rfl⟩ := Language.mem_mul.mp h
  exact ⟨name, rfl⟩

def typeName : Language Token :=
  (1 + sign .dot) * dotted

def integer : Language Token :=
  (1 + sign .minus) * unsigned

theorem head?_of_mem_integer {w : List Token} (h : w ∈ integer) :
    w.head? = some (.punct .minus) ∨ ∃ value, w.head? = some (.int value) := by
  obtain ⟨u, hu, v, ⟨value, rfl⟩, rfl⟩ := Language.mem_mul.mp h
  rcases hu with rfl | rfl
  · exact .inr ⟨value, rfl⟩
  · exact .inl rfl

def number : Language Token :=
  unsigned + float + keyword "inf" + keyword "nan"

def constant : Language Token :=
  dotted + (1 + sign .plus + sign .minus) * number + bytes

def settingPart : Language Token :=
  ident + sign .leftParen * typeName * sign .rightParen

def settingName : Language Token :=
  settingPart * (sign .dot * settingPart)∗

/-- The names of the options that a field may have. -/
def fieldSettingName : Edition → Language Token
  | .proto2 => settingName
  | .proto3 => settingName \ keyword "default"

def setting (name : Language Token) : Language Token :=
  name * sign .equals * constant

def settingStatement : Language Token :=
  keyword "option" * setting settingName * sign .semicolon

def settingList (name : Language Token) : Language Token :=
  sign .leftBracket * commaList (setting name) * sign .rightBracket

/-! ### Enums -/

def reservedRange : Language Token :=
  integer * (1 + keyword "to" * (keyword "max" + integer))

def reserved : Language Token :=
  keyword "reserved" * (commaList reservedRange + commaList text) * sign .semicolon

def enumValue : Language Token :=
  (ident * sign .equals * integer * (1 + settingList settingName) * sign .semicolon) \
    startingWith {"option", "reserved"}

def enumPart : Language Token :=
  sign .semicolon + settingStatement + reserved + enumValue

def enum : Language Token :=
  keyword "enum" * ident * sign .leftBrace * enumPart∗ * sign .rightBrace

/-! ### Messages -/

def scalarNames : Set String :=
  {name | (Scalar.ofName? name).isSome}

def scalar : Language Token :=
  {w | ∃ name ∈ scalarNames, w = [.ident name]}

/-- The type of a field. A name that starts like a scalar type needs a leading dot. -/
def fieldType : Language Token :=
  scalar + sign .dot * dotted +
    dotted \ startingWith scalarNames

/-- A field from its name on. -/
def fieldEnd (e : Edition) : Language Token :=
  ident * sign .equals * unsigned * (1 + settingList (fieldSettingName e)) * sign .semicolon

def labelWords : Set String :=
  {"optional", "required", "repeated"}

/-- The words that start another part of a message than a field, or one that is not supported. -/
def partWords : Set String :=
  {"message", "enum", "option", "reserved", "oneof", "extend", "extensions"}

def label : Edition → Language Token
  | .proto2 => keyword "optional" + keyword "required" + keyword "repeated"
  | .proto3 => keyword "optional" + keyword "repeated"

/-- The label, if there is one, and the type of a field. -/
def fieldStart : Edition → Language Token
  | .proto2 => label .proto2 * fieldType
  | .proto3 => label .proto3 * fieldType + fieldType \ startingWith labelWords

def field (e : Edition) : Language Token :=
  (fieldStart e * fieldEnd e) \ startingWith partWords

/-- A part of a message that is no message. -/
def messagePart (e : Edition) : Language Token :=
  sign .semicolon + enum + settingStatement + reserved + field e

/-- A message, given the messages that it may contain. -/
def messageOver (e : Edition) (nested : Language Token) : Language Token :=
  keyword "message" * ident * sign .leftBrace * (messagePart e + nested)∗ * sign .rightBrace

theorem messageOver_monotone (e : Edition) : Monotone (messageOver e) := by
  intro a b h
  have hparts : messagePart e + a ≤ messagePart e + b := add_le_add_right h _
  exact mul_le_mul_left (mul_le_mul_right (kstar_mono hparts) _) _

/-- A message, which may contain messages: the least language that is built over itself. -/
def message (e : Edition) : Language Token :=
  OrderHom.lfp ⟨messageOver e, messageOver_monotone e⟩

theorem message_eq (e : Edition) : message e = messageOver e (message e) :=
  (OrderHom.map_lfp ⟨messageOver e, messageOver_monotone e⟩).symm

/-! ### Files -/

def importStatement : Language Token :=
  keyword "import" * (1 + keyword "public" + keyword "weak") * text * sign .semicolon

def package : Language Token :=
  keyword "package" * dotted * sign .semicolon

/-- A statement that may be repeated. -/
def statement (e : Edition) : Language Token :=
  sign .semicolon + importStatement + settingStatement + message e + enum

/-- Statements, among which there is at most one package. -/
def statements (e : Edition) : Language Token :=
  (statement e)∗ * (1 + package * (statement e)∗)

/-- The declaration of a language level. -/
def heading (e : Edition) : Language Token :=
  keyword "syntax" * sign .equals * textThat (· = e.name) * sign .semicolon

/-- A whole file. -/
def file : Language Token :=
  statements .proto2 + heading .proto2 * statements .proto2 +
    heading .proto3 * statements .proto3

end Protobuf.Phrase

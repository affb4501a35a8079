import Protobuf.Schema.Component
import Protobuf.Schema.Default
import Protobuf.Schema.EnumRules
import Protobuf.Schema.FieldRules
import Protobuf.Schema.Registry
import Protobuf.Schema.Visibility

/-! Linking: from parsed files to a schema.

Names are entered first, and if they clash nothing else is looked at. Then all enums are checked,
and then all messages; each type name is looked up from inside its message, and must lead to a
message or enum of a visible file. Flaws are reported for one file only, the one whose flaw was
found first. -/
namespace Protobuf.Linking

/-- What linking a piece gives: a value, and the flaws on the way. -/
structure Checked (α : Type) where
  value : α
  flaws : List Flaw

/-- What the fields of a file are linked against. -/
structure Context where
  registry : Registry
  /-- The enums with their values. -/
  enums : List Enum
  fileName : Nat → String
  /-- The files that may be referred to. -/
  visible : List Nat

/-! ### Fields -/

/-- Why an entry is no type for a field, if it is none. -/
def refusal (ctx : Context) (entry : NameEntry) : Option String :=
  match entry.definition with
  | .package => some ("'" ++ entry.name.dotted ++ "' is a package, not a message or enum")
  | .enumValue => some ("'" ++ entry.name.dotted ++ "' is an enum value, not a message or enum")
  | _ =>
    if entry.file ∈ ctx.visible then none
    else
      some ("'" ++ entry.name.dotted ++ "' is defined in '" ++ ctx.fileName entry.file ++
        "', which is not imported")

/-- The type that an entry stands for. -/
def typeOf (d : Definition) : Option FieldType :=
  match d with
  | .message index => some (.message index)
  | .enum index => some (.enum index)
  | .package | .enumValue => none

/-- Links the type name of a field. -/
def namedType (ctx : Context) (scope : QualifiedName) (f : Decl.Field) (type : Decl.TypeRef) :
    Checked (Option FieldType) :=
  let unresolved (hint : Option String) : Checked (Option FieldType) :=
    ⟨none, [.unresolvedType f.name.value type.text f.typeSpan hint]⟩
  match ctx.registry.resolve scope type with
  | none => unresolved none
  | some entry =>
    match refusal ctx entry with
    | some hint => unresolved (some hint)
    | none => ⟨typeOf entry.definition, []⟩

def fieldType (ctx : Context) (scope : QualifiedName) (f : Decl.Field) :
    Checked (Option FieldType) :=
  match f.type with
  | .scalar type => ⟨some (.scalar type), []⟩
  | .named type => namedType ctx scope f type

/-- A field without label has implicit presence, unless it holds a message. -/
def cardinality (label : Option Decl.FieldLabel) (type : FieldType) : Cardinality :=
  match label with
  | some .optional => .optional
  | some .required => .required
  | some .repeated => .repeated
  | none =>
    match type with
    | .message _ => .optional
    | _ => .implicit

/-- Whether a field may be packed, which it then is unless it says otherwise. -/
def isPackable (c : Cardinality) (type : FieldType) : Bool :=
  c == .repeated &&
    match type with
    | .scalar type => type.isPackable
    | .enum _ => true
    | .message _ => false

def packed (f : Decl.Field) (packable : Bool) : Checked Bool :=
  match f.packed? with
  | none => ⟨packable, []⟩
  | some setting =>
    let invalid : Checked Bool :=
      ⟨false, [.invalidPackedOption f.name.value (setting.nameSpan.join setting.valueSpan)]⟩
    match setting.value with
    | .bool value => if packable then ⟨value, []⟩ else invalid
    | _ => invalid

def default (ctx : Context) (f : Decl.Field) (c : Cardinality) (type : FieldType) :
    Checked (Option Default) :=
  match f.default? with
  | none => ⟨none, []⟩
  | some setting =>
    match Default.ofSetting ctx.enums c type setting.value with
    | .ok value => ⟨some value, []⟩
    | .error reason => ⟨none, [.invalidDefault f.name.value reason setting.valueSpan]⟩

/-- Links a field. One without a usable type and number has no further flaws. -/
def field (ctx : Context) (scope : QualifiedName) (f : Decl.Field) : Checked (Option Field) :=
  let type := fieldType ctx scope f
  match type.value, FieldRules.number? f.number with
  | some t, some number =>
    let c := cardinality f.label t
    let p := packed f (isPackable c t)
    let d := default ctx f c t
    ⟨some ⟨f.name.value, number, c, t, p.value, d.value, false⟩, type.flaws ++ p.flaws ++ d.flaws⟩
  | _, _ => ⟨none, type.flaws⟩

/-! ### Messages and enums -/

def message (ctx : Context) (m : MessageOutline) : Checked Message :=
  let fields := m.decl.fields.map (field ctx m.fullName)
  { value :=
      { name := m.decl.name.value, fullName := m.fullName, file := m.file, parent := m.parent
        fields := fields.filterMap (·.value), messages := m.messages, enums := m.enums }
    flaws := FieldRules.flaws m.fullName.dotted m.decl ++ fields.flatMap (·.flaws) }

def enum (edition : Decl.Edition) (e : EnumOutline) : Checked Enum where
  value :=
    { name := e.decl.name.value, fullName := e.fullName, file := e.file, parent := e.parent
      values := EnumRules.values e.decl }
  flaws := EnumRules.flaws edition e.decl

/-! ### Boxing -/

/-- The graph of messages: an edge for each field that holds one message. -/
def containment (messages : List Message) : Graph :=
  messages.map fun m => m.fields.filterMap (·.singularMessage?)

/-- A field is boxed if it holds one message of its owner's component. -/
def boxField (components : List Nat) (owner : Nat) (f : Field) : Field :=
  match f.singularMessage? with
  | some target => { f with boxed := components[owner]? == components[target]? }
  | none => f

def box (messages : List Message) : List Message :=
  let components := (containment messages).componentNumbers
  messages.mapIdx fun owner m => { m with fields := m.fields.map (boxField components owner) }

/-! ### Schemas -/

/-- Flaws, each with the number of its file. -/
abbrev Findings := List (Nat × Flaw)

/-- The report on the file whose flaw was found first. -/
def report? (files : List LoadedFile) (findings : Findings) : Option SchemaError :=
  match findings with
  | [] => none
  | (file, _) :: _ =>
    match files[file]? with
    | none => none
    | some f =>
      SchemaError.ofFlaws? f.source.name f.source.text
        ((findings.filter (·.1 == file)).map (·.2))

def fileName (files : List LoadedFile) (index : Nat) : String :=
  match files[index]? with
  | some f => f.source.name
  | none => ""

def edition (files : List LoadedFile) (index : Nat) : Decl.Edition :=
  match files[index]? with
  | some f => f.source.decl.edition
  | none => .proto2

def checkEnums (files : List LoadedFile) (outline : Outline) : List (Nat × Checked Enum) :=
  outline.enums.map fun e => (e.file, enum (edition files e.file) e)

def checkMessages (files : List LoadedFile) (outline : Outline) (registry : Registry)
    (enums : List Enum) : List (Nat × Checked Message) :=
  let visible := Visibility.table files
  outline.messages.map fun m =>
    (m.file, message ⟨registry, enums, fileName files, visible.getD m.file []⟩ m)

/-- The flaws of checked definitions. -/
def findings (checked : List (Nat × Checked α)) : Findings :=
  checked.flatMap fun (file, c) => c.flaws.map fun flaw => (file, flaw)

/-- Links files, each of which comes after those it imports. -/
def link (files : List LoadedFile) : Except SchemaError Schema :=
  let (outline, schemaFiles) := Outline.ofFiles files
  let (registry, clashes) := Registry.enter (fileName files) [] outline.names
  match report? files clashes with
  | some e => .error e
  | none =>
    let enums := checkEnums files outline
    let messages := checkMessages files outline registry (enums.map (·.2.value))
    match report? files (findings enums ++ findings messages) with
    | some e => .error e
    | none => .ok ⟨schemaFiles, box (messages.map (·.2.value)), enums.map (·.2.value)⟩

end Protobuf.Linking

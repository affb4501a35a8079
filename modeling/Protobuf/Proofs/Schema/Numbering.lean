import Mathlib.Data.List.Forall2
import Mathlib.Data.List.Perm.Basic
import Protobuf.Proofs.Schema.Boxing

/-! The numbers of definitions.

The outline gives numbers to definitions in one walk, and each list of numbers that it writes down
is computed from the counts of what comes before. Here it is shown that these lists are right:
whatever number is listed somewhere, the definition with that number is the one declared there
(`MessageAt`, `EnumAt`, `Nests`), every number is listed exactly once, and every name stands for the
definition with its number (`Labelled`).

Most of it is said of a part of an outline that has its place in the outline of all files
(`Places`), so that numbers can be looked up in the whole while the walk is still inside a part.
What does not depend on the contents of a definition is said once for messages and enums, of where
they stand (`Place`). -/
namespace Protobuf

/-- The kinds of definitions that have numbers. -/
inductive Kind where
  | message
  | enum

namespace Kind

/-- What a name of this kind stands for. -/
def definition : Kind → Nat → Definition
  | message => .message
  | enum => .enum

/-- The number of a definition, if it is of this kind. -/
def number? : Kind → Definition → Option Nat
  | message, .message index => some index
  | enum, .enum index => some index
  | _, _ => none

theorem number?_eq_some_iff {kind : Kind} {d : Definition} {index : Nat} :
    kind.number? d = some index ↔ d = kind.definition index := by
  cases kind <;> cases d <;> simp [number?, definition]

theorem definition_inj {kind : Kind} {i j : Nat} (h : kind.definition i = kind.definition j) :
    i = j := by
  cases kind with
  | message => exact Definition.message.inj h
  | enum => exact Definition.enum.inj h

/-- The number for this kind, of one for each. -/
def first (message enum : Nat) : Kind → Nat
  | .message => message
  | .enum => enum

end Kind

/-- Where a definition stands. -/
structure Place where
  name : String
  fullName : QualifiedName
  file : Nat
  parent : Option Nat

/-- A definition is declared at a site. -/
def Place.At (d : Place) (site : Outline.Site) : Prop :=
  d.fullName = site.scope ++ [d.name] ∧ d.file = site.file ∧ d.parent = site.parent

def MessageOutline.place (m : MessageOutline) : Place :=
  ⟨m.decl.name.value, m.fullName, m.file, m.parent⟩

def EnumOutline.place (e : EnumOutline) : Place :=
  ⟨e.decl.name.value, e.fullName, e.file, e.parent⟩

/-- Where the definitions of one kind stand, in the order of their numbers. -/
def Outline.places (o : Outline) : Kind → List Place
  | .message => o.messages.map (·.place)
  | .enum => o.enums.map (·.place)

/-- The numbers that are listed inside a message. -/
def MessageOutline.nested (m : MessageOutline) : Kind → List Nat
  | .message => m.messages
  | .enum => m.enums

/-- The numbers that are listed at the top of a file. -/
def SchemaFile.tops (f : SchemaFile) : Kind → List Nat
  | .message => f.messages
  | .enum => f.enums

/-- The names of what is declared in a message. -/
def Decl.Message.nestedNames (m : Decl.Message) : Kind → List String
  | .message => m.messages.map (·.name.value)
  | .enum => m.enums.map (·.name.value)

/-- The names of what is declared at the top of a file. -/
def Decl.File.topNames (f : Decl.File) : Kind → List String
  | .message => f.messages.map (·.name.value)
  | .enum => f.enums.map (·.name.value)

/-- A message is declared under this path of names, at the top or in another message. -/
inductive Decl.DeclaredAt (messages : List Decl.Message) : List String → Decl.Message → Prop where
  | top {m : Decl.Message} (hm : m ∈ messages) : DeclaredAt messages [m.name.value] m
  | nested {path : List String} {m inner : Decl.Message} (hm : DeclaredAt messages path m)
      (hinner : inner ∈ m.messages) : DeclaredAt messages (path ++ [inner.name.value]) inner

namespace Outline
open Decl (DeclaredAt)
variable {all a b : Outline} {site : Site} {i e : Nat}

/-! ### Parts of an outline -/

theorem names_append (a b : Outline) : (a ++ b).names = a.names ++ b.names := rfl

theorem messages_append (a b : Outline) : (a ++ b).messages = a.messages ++ b.messages := rfl

theorem enums_append (a b : Outline) : (a ++ b).enums = a.enums ++ b.enums := rfl

theorem places_append (a b : Outline) (kind : Kind) :
    (a ++ b).places kind = a.places kind ++ b.places kind := by
  cases kind <;> exact List.map_append

theorem length_enums_append (a b : Outline) :
    (a ++ b).enums.length = a.enums.length + b.enums.length :=
  List.length_append

theorem length_enums_ofEnums (site : Site) (next : Nat) (enums : List Decl.Enum) :
    (ofEnums site next enums).enums.length = enums.length := by
  induction enums generalizing next with
  | nil => rfl
  | cons e rest ih =>
    rw [ofEnums, length_enums_append, ih, List.length_cons]
    exact Nat.add_comm 1 rest.length

mutual

theorem length_enums_ofMessage (site : Site) (i e : Nat) :
    ∀ m, (ofMessage site i e m).enums.length = enumCount m
  | ⟨_, _, messages, enums, _, _, _⟩ => by
    rw [ofMessage, length_enums_append, length_enums_append, length_enums_ofMessages,
      length_enums_ofEnums, enumCount, List.length_nil, Nat.zero_add]

theorem length_enums_ofMessages (site : Site) (i e : Nat) :
    ∀ messages, (ofMessages site i e messages).enums.length = enumsCount messages
  | [] => rfl
  | m :: rest => by
    rw [ofMessages, length_enums_append, length_enums_ofMessage, length_enums_ofMessages,
      enumsCount]

end

/-- The definitions of a part have their numbers in the whole from `i` and `e` on. -/
structure Places (all : Outline) (i e : Nat) (part : Outline) : Prop where
  messages : ∀ {k : Nat} {m : MessageOutline}, part.messages[k]? = some m →
    all.messages[i + k]? = some m
  enums : ∀ {k : Nat} {x : EnumOutline}, part.enums[k]? = some x → all.enums[e + k]? = some x

theorem Places.whole (all : Outline) : all.Places 0 0 all := by
  constructor <;> simp

theorem Places.left (h : all.Places i e (a ++ b)) : all.Places i e a where
  messages hm := by
    apply h.messages
    rw [messages_append, List.getElem?_append_left (List.getElem?_eq_some_iff.mp hm).1, hm]
  enums hx := by
    apply h.enums
    rw [enums_append, List.getElem?_append_left (List.getElem?_eq_some_iff.mp hx).1, hx]

theorem Places.right (h : all.Places i e (a ++ b)) :
    all.Places (i + a.messages.length) (e + a.enums.length) b where
  messages {k m} hm := by
    rw [Nat.add_assoc]
    apply h.messages
    rw [messages_append, List.getElem?_append_right (Nat.le_add_right ..), Nat.add_sub_cancel_left]
    exact hm
  enums {k x} hx := by
    rw [Nat.add_assoc]
    apply h.enums
    rw [enums_append, List.getElem?_append_right (Nat.le_add_right ..), Nat.add_sub_cancel_left]
    exact hx

/-! ### What is listed is what is declared -/

/-- The message with this number is the one declared at this site. -/
def MessageAt (all : Outline) (site : Site) (index : Nat) (d : Decl.Message) : Prop :=
  ∃ m, all.messages[index]? = some m ∧ m.decl = d ∧ m.fullName = site.scope ++ [d.name.value] ∧
    m.file = site.file ∧ m.parent = site.parent

/-- The enum with this number is the one declared at this site. -/
def EnumAt (all : Outline) (site : Site) (index : Nat) (d : Decl.Enum) : Prop :=
  ∃ x, all.enums[index]? = some x ∧ x.decl = d ∧ x.fullName = site.scope ++ [d.name.value] ∧
    x.file = site.file ∧ x.parent = site.parent

/-- The definition of this kind with this number has this name and stands at this site. -/
def PlaceAt (all : Outline) (kind : Kind) (site : Site) (index : Nat) (name : String) : Prop :=
  ∃ d, (all.places kind)[index]? = some d ∧ d.name = name ∧ d.At site

theorem place_of_message {index : Nat} {m : MessageOutline} (h : all.messages[index]? = some m) :
    (all.places .message)[index]? = some m.place := by
  rw [places, List.getElem?_map, h, Option.map_some]

theorem place_of_enum {index : Nat} {x : EnumOutline} (h : all.enums[index]? = some x) :
    (all.places .enum)[index]? = some x.place := by
  rw [places, List.getElem?_map, h, Option.map_some]

theorem MessageAt.place {index : Nat} {d : Decl.Message} (h : all.MessageAt site index d) :
    all.PlaceAt .message site index d.name.value := by
  obtain ⟨m, hm, rfl, hat⟩ := h
  exact ⟨m.place, place_of_message hm, rfl, hat⟩

theorem EnumAt.place {index : Nat} {d : Decl.Enum} (h : all.EnumAt site index d) :
    all.PlaceAt .enum site index d.name.value := by
  obtain ⟨x, hx, rfl, hat⟩ := h
  exact ⟨x.place, place_of_enum hx, rfl, hat⟩

/-- What is nested in the message with this number has the numbers that the message lists. -/
structure Nests (all : Outline) (index : Nat) (m : MessageOutline) : Prop where
  messages : List.Forall₂ (all.MessageAt ⟨m.file, m.fullName, some index⟩) m.messages
    m.decl.messages
  enums : List.Forall₂ (all.EnumAt ⟨m.file, m.fullName, some index⟩) m.enums m.decl.enums
  later : ∀ nested ∈ m.messages, index < nested

theorem Nests.placed {index : Nat} {m : MessageOutline} (h : all.Nests index m) (kind : Kind) :
    List.Forall₂ (all.PlaceAt kind ⟨m.file, m.fullName, some index⟩) (m.nested kind)
      (m.decl.nestedNames kind) := by
  cases kind with
  | message => exact List.forall₂_map_right_iff.mpr (h.messages.imp fun _ _ => MessageAt.place)
  | enum => exact List.forall₂_map_right_iff.mpr (h.enums.imp fun _ _ => EnumAt.place)

theorem enums_at {enums : List Decl.Enum} (h : all.Places i e (ofEnums site e enums)) :
    List.Forall₂ (all.EnumAt site) (enumIndices e enums) enums := by
  induction enums generalizing e with
  | nil => exact .nil
  | cons x rest ih =>
    rw [ofEnums] at h
    have hfirst : (ofEnum site e x).enums[0]? =
        some ⟨x, site.scope ++ [x.name.value], site.file, site.parent⟩ := rfl
    exact .cons ⟨_, h.left.enums hfirst, rfl, rfl, rfl, rfl⟩ (ih h.right)

theorem getElem?_messages_ofMessage (site : Site) (i e : Nat) (m : Decl.Message) :
    ∃ o, (ofMessage site i e m).messages[0]? = some o ∧ o.decl = m ∧
      o.fullName = site.scope ++ [m.name.value] ∧ o.file = site.file ∧ o.parent = site.parent := by
  obtain ⟨name, fields, messages, enums, reserved, settings, span⟩ := m
  rw [ofMessage]
  exact ⟨_, rfl, rfl, rfl, rfl, rfl⟩

theorem messages_at {messages : List Decl.Message}
    (h : all.Places i e (ofMessages site i e messages)) :
    List.Forall₂ (all.MessageAt site) (messageIndices i messages) messages := by
  induction messages generalizing i e with
  | nil => exact .nil
  | cons m rest ih =>
    rw [ofMessages] at h
    obtain ⟨o, ho, hdecl⟩ := getElem?_messages_ofMessage site i e m
    have hright := h.right
    rw [length_messages_ofMessage, length_enums_ofMessage] at hright
    exact .cons ⟨o, h.left.messages ho, hdecl⟩ (ih hright)

theorem le_of_mem_messageIndices {next index : Nat} {messages : List Decl.Message}
    (h : index ∈ messageIndices next messages) : next ≤ index := by
  induction messages generalizing next with
  | nil => cases h
  | cons m rest ih =>
    rcases List.mem_cons.mp h with rfl | h
    · exact Nat.le_refl index
    · exact Nat.le_of_add_right_le (ih h)

mutual

theorem ofMessage_nests (site : Site) (i e : Nat) : ∀ m, all.Places i e (ofMessage site i e m) →
    ∀ {k o}, (ofMessage site i e m).messages[k]? = some o → all.Nests (i + k) o
  | ⟨name, fields, messages, enums, reserved, settings, span⟩, h, k, o, ho => by
    rw [ofMessage] at h ho
    have hinner := h.left.right
    have hown := h.right
    rw [length_enums_append, length_enums_ofMessages, List.length_nil, Nat.zero_add] at hown
    cases k with
    | zero =>
      cases ho
      exact ⟨messages_at hinner, enums_at hown, fun _ => le_of_mem_messageIndices⟩
    | succ k =>
      rw [messages_append, messages_ofEnums, List.append_nil] at ho
      rw [Nat.add_comm k 1, ← Nat.add_assoc]
      exact ofMessages_nests _ (i + 1) e messages hinner ho

theorem ofMessages_nests (site : Site) (i e : Nat) : ∀ messages,
    all.Places i e (ofMessages site i e messages) →
    ∀ {k o}, (ofMessages site i e messages).messages[k]? = some o → all.Nests (i + k) o
  | [], _, _, _, ho => nomatch ho
  | m :: rest, h, k, o, ho => by
    rw [ofMessages] at h ho
    have hright := h.right
    rw [length_messages_ofMessage, length_enums_ofMessage] at hright
    rw [messages_append, List.getElem?_append, length_messages_ofMessage] at ho
    split at ho
    · exact ofMessage_nests site i e m h.left ho
    · rename_i hlt
      have hnests := ofMessages_nests site _ _ rest hright ho
      rwa [Nat.add_assoc, Nat.add_sub_cancel' (Nat.le_of_not_lt hlt)] at hnests

end

/-! ### What has a number is declared -/

section Declared
variable {list : List Decl.Message} {base : QualifiedName}

/-- The outline of a message in this file that is declared in the list; `base` is in front of all
names. -/
def Declared (list : List Decl.Message) (base : QualifiedName) (file : Nat) (o : MessageOutline) :
    Prop :=
  o.file = file ∧ ∃ path, o.fullName = base ++ path ∧ DeclaredAt list path o.decl

mutual

theorem ofMessage_declared (site : Site) (i e : Nat) {around : List String}
    (hsite : site.scope = base ++ around) : ∀ m,
      DeclaredAt list (around ++ [m.name.value]) m →
      ∀ o ∈ (ofMessage site i e m).messages, Declared list base site.file o
  | ⟨name, fields, messages, enums, reserved, settings, span⟩, h, o, ho => by
    have hscope : site.scope ++ [name.value] = base ++ (around ++ [name.value]) := by
      rw [hsite, List.append_assoc]
    rw [ofMessage, messages_append, messages_append, messages_ofEnums, List.append_nil] at ho
    rcases List.mem_append.mp ho with ho | ho
    · obtain rfl := List.mem_singleton.mp ho
      exact ⟨rfl, _, hscope, h⟩
    · exact ofMessages_declared ⟨site.file, site.scope ++ [name.value], some i⟩ (i + 1) e hscope
        messages (fun m hm => h.nested hm) o ho

theorem ofMessages_declared (site : Site) (i e : Nat) {around : List String}
    (hsite : site.scope = base ++ around) : ∀ messages,
      (∀ m ∈ messages, DeclaredAt list (around ++ [m.name.value]) m) →
      ∀ o ∈ (ofMessages site i e messages).messages, Declared list base site.file o
  | [], _, _, ho => nomatch ho
  | m :: rest, h, o, ho => by
    rw [ofMessages] at ho
    rcases List.mem_append.mp ho with ho | ho
    · exact ofMessage_declared site i e hsite m (h m List.mem_cons_self) o ho
    · exact ofMessages_declared site _ _ hsite rest (fun m' hm' => h m' (.tail m hm')) o ho

end

end Declared

/-! ### Every number is listed once -/

mutual

theorem messages_once_ofMessage (site : Site) (i e : Nat) : ∀ m,
    (i :: (ofMessage site i e m).messages.flatMap (·.messages)).Perm
      (List.range' i (messageCount m))
  | ⟨name, fields, messages, enums, reserved, settings, span⟩ => by
    rw [ofMessage, messages_append, messages_append, messages_ofEnums, List.append_nil,
      messageCount, List.range'_succ]
    exact (messages_once_ofMessages _ (i + 1) e messages).cons i

theorem messages_once_ofMessages (site : Site) (i e : Nat) : ∀ messages,
    (messageIndices i messages ++ (ofMessages site i e messages).messages.flatMap (·.messages)).Perm
      (List.range' i (messagesCount messages))
  | [] => .nil
  | m :: rest => by
    have hfirst := messages_once_ofMessage site i e m
    have hrest := messages_once_ofMessages site (i + messageCount m) (e + enumCount m) rest
    rw [ofMessages, messages_append, List.flatMap_append, messageIndices, messagesCount,
      ← List.range'_append_1]
    refine List.Perm.trans ?_ (hfirst.append hrest)
    exact (List.perm_append_comm_assoc ..).cons i

end

mutual

theorem enums_once_ofMessage (site : Site) (i e : Nat) : ∀ m,
    ((ofMessage site i e m).messages.flatMap (·.enums)).Perm (List.range' e (enumCount m))
  | ⟨name, fields, messages, enums, reserved, settings, span⟩ => by
    have hinner := enums_once_ofMessages ⟨site.file, site.scope ++ [name.value], some i⟩ (i + 1) e
      messages
    rw [ofMessage, messages_append, messages_append, messages_ofEnums, List.append_nil, enumCount,
      ← List.range'_append_1]
    exact List.perm_append_comm.trans (hinner.append_right _)

theorem enums_once_ofMessages (site : Site) (i e : Nat) : ∀ messages,
    ((ofMessages site i e messages).messages.flatMap (·.enums)).Perm
      (List.range' e (enumsCount messages))
  | [] => .nil
  | m :: rest => by
    rw [ofMessages, messages_append, List.flatMap_append, enumsCount, ← List.range'_append_1]
    exact (enums_once_ofMessage site i e m).append (enums_once_ofMessages site _ _ rest)

end

/-! ### Names and numbers -/

/-- The number, name and file of a definition of this kind that an entry stands for. -/
def label? (kind : Kind) (entry : NameEntry) : Option (Nat × QualifiedName × Nat) :=
  (kind.number? entry.definition).map fun index => (index, entry.name, entry.file)

/-- The names of messages and enums, in the order of their numbers. -/
def Labelled (i e : Nat) (o : Outline) : Prop :=
  ∀ kind : Kind, o.names.filterMap (label? kind) =
    ((o.places kind).zipIdx (kind.first i e)).map fun x => (x.2, x.1.fullName, x.1.file)

theorem Labelled.append (ha : a.Labelled i e)
    (hb : b.Labelled (i + a.messages.length) (e + a.enums.length)) : (a ++ b).Labelled i e := by
  intro kind
  have hfirst : kind.first (i + a.messages.length) (e + a.enums.length) =
      kind.first i e + (a.places kind).length := by
    cases kind <;> simp [Kind.first, places]
  rw [names_append, places_append, List.filterMap_append, List.zipIdx_append, List.map_append,
    ha kind, hb kind, hfirst]

theorem Labelled.empty : Outline.empty.Labelled i e := by
  intro kind
  cases kind <;> rfl

theorem ofEnum_labelled (site : Site) (i e : Nat) (x : Decl.Enum) :
    (ofEnum site e x).Labelled i e := by
  intro kind
  have hvalues : (x.values.map fun v =>
      (⟨site.scope ++ [v.name.value], .enumValue, site.file, v.name.span⟩ : NameEntry)).filterMap
        (label? kind) = [] := by
    refine List.filterMap_eq_nil_iff.mpr fun entry hentry => ?_
    obtain ⟨v, _, rfl⟩ := List.mem_map.mp hentry
    cases kind <;> rfl
  rw [ofEnum, enumNames]
  cases kind with
  | message => exact hvalues
  | enum => exact congrArg (List.cons _) hvalues

theorem ofEnums_labelled (site : Site) (i e : Nat) (enums : List Decl.Enum) :
    (ofEnums site e enums).Labelled i e := by
  induction enums generalizing e with
  | nil => exact .empty
  | cons x rest ih => exact (ofEnum_labelled site i e x).append (ih (e + 1))

mutual

theorem ofMessage_labelled (site : Site) (i e : Nat) : ∀ m, (ofMessage site i e m).Labelled i e
  | ⟨name, fields, messages, enums, reserved, settings, span⟩ => by
    rw [ofMessage]
    refine Labelled.append (Labelled.append (fun kind => ?_) ?_) ?_
    · cases kind <;> rfl
    · exact ofMessages_labelled _ (i + 1) e messages
    · rw [length_enums_append, length_enums_ofMessages, List.length_nil, Nat.zero_add]
      exact ofEnums_labelled _ _ _ enums

theorem ofMessages_labelled (site : Site) (i e : Nat) :
    ∀ messages, (ofMessages site i e messages).Labelled i e
  | [] => .empty
  | m :: rest => by
    rw [ofMessages]
    refine (ofMessage_labelled site i e m).append ?_
    rw [length_messages_ofMessage, length_enums_ofMessage]
    exact ofMessages_labelled site _ _ rest

end

/-! ### Files -/

/-- The entry of a file in a schema lists what the file declares. -/
structure FileAt (all : Outline) (file : Nat) (f : LoadedFile) (entry : SchemaFile) : Prop where
  name : entry.name = f.source.name
  package : entry.package = f.source.package
  edition : entry.edition = f.source.decl.edition
  isRoot : entry.isRoot = f.isRoot
  messages : List.Forall₂ (all.MessageAt ⟨file, f.source.package.getD [], none⟩) entry.messages
    f.source.decl.messages
  enums : List.Forall₂ (all.EnumAt ⟨file, f.source.package.getD [], none⟩) entry.enums
    f.source.decl.enums

theorem FileAt.placed {file : Nat} {f : LoadedFile} {entry : SchemaFile}
    (h : all.FileAt file f entry) (kind : Kind) :
    List.Forall₂ (all.PlaceAt kind ⟨file, f.source.package.getD [], none⟩) (entry.tops kind)
      (f.source.decl.topNames kind) := by
  cases kind with
  | message => exact List.forall₂_map_right_iff.mpr (h.messages.imp fun _ _ => MessageAt.place)
  | enum => exact List.forall₂_map_right_iff.mpr (h.enums.imp fun _ _ => EnumAt.place)

theorem messages_ofFile (file i e : Nat) (f : SourceFile) :
    (ofFile file i e f).messages =
      (ofMessages ⟨file, f.package.getD [], none⟩ i e f.decl.messages).messages := by
  simp only [ofFile, messages_append, messages_ofEnums, List.nil_append, List.append_nil]

theorem length_enums_ofFile (file i e : Nat) (f : SourceFile) :
    (ofFile file i e f).enums.length = enumsCount f.decl.messages + f.decl.enums.length := by
  simp only [ofFile, length_enums_append, length_enums_ofMessages, length_enums_ofEnums,
    List.length_nil, Nat.zero_add]

theorem fileAt_schemaFile {file : Nat} {f : LoadedFile}
    (h : all.Places i e (ofFile file i e f.source)) :
    all.FileAt file f (schemaFile i e f) := by
  have hmessages : all.Places i e (ofMessages ⟨file, f.source.package.getD [], none⟩ i e
      f.source.decl.messages) := h.left.right
  have henums := h.right
  rw [length_enums_append, length_enums_ofMessages, List.length_nil, Nat.zero_add] at henums
  exact ⟨rfl, rfl, rfl, rfl, messages_at hmessages, enums_at henums⟩

theorem ofFile_nests {file : Nat} {f : SourceFile} (h : all.Places i e (ofFile file i e f))
    {k : Nat} {o : MessageOutline} (ho : (ofFile file i e f).messages[k]? = some o) :
    all.Nests (i + k) o := by
  rw [messages_ofFile] at ho
  exact ofMessages_nests ⟨file, f.package.getD [], none⟩ i e f.decl.messages h.left.right ho

theorem definition_of_packages {file : Nat} {f : SourceFile} {entry : NameEntry}
    (h : entry ∈ (f.decl.package.map (packageNames file)).getD []) :
    entry.definition = .package ∧ entry.file = file := by
  cases hpackage : f.decl.package with
  | none => simp [hpackage] at h
  | some p =>
    rw [hpackage] at h
    obtain ⟨n, _, rfl⟩ := List.mem_map.mp h
    exact ⟨rfl, rfl⟩

theorem ofFile_labelled (file i e : Nat) (f : SourceFile) : (ofFile file i e f).Labelled i e := by
  refine Labelled.append (Labelled.append (fun kind => ?_) ?_) ?_
  · have hnone :
        ((f.decl.package.map (packageNames file)).getD []).filterMap (label? kind) = [] := by
      refine List.filterMap_eq_nil_iff.mpr fun entry hentry => ?_
      rw [label?, (definition_of_packages hentry).1]
      cases kind <;> rfl
    cases kind <;> exact hnone
  · exact ofMessages_labelled _ i e f.decl.messages
  · rw [length_enums_append, length_enums_ofMessages, List.length_nil, Nat.zero_add]
    exact ofEnums_labelled _ _ _ f.decl.enums

theorem ofFilesFrom_labelled (file i e : Nat) (files : List LoadedFile) :
    (ofFilesFrom file i e files).1.Labelled i e := by
  induction files generalizing file i e with
  | nil => exact .empty
  | cons f rest ih => exact (ofFile_labelled file i e f.source).append (ih (file + 1) _ _)

theorem ofFilesFrom_nests (file i e : Nat) (files : List LoadedFile)
    (h : all.Places i e (ofFilesFrom file i e files).1) {k : Nat} {o : MessageOutline}
    (ho : (ofFilesFrom file i e files).1.messages[k]? = some o) : all.Nests (i + k) o := by
  induction files generalizing file i e k with
  | nil => cases ho
  | cons f rest ih =>
    rw [ofFilesFrom] at h ho
    rw [messages_append, List.getElem?_append] at ho
    split at ho
    · exact ofFile_nests h.left ho
    · rename_i hlt
      have hnests := ih (file + 1) _ _ h.right ho
      rwa [Nat.add_assoc, Nat.add_sub_cancel' (Nat.le_of_not_lt hlt)] at hnests

theorem ofFilesFrom_at (file i e : Nat) (files : List LoadedFile)
    (h : all.Places i e (ofFilesFrom file i e files).1) :
    List.Forall₂ (fun x entry => all.FileAt x.2 x.1 entry) (files.zipIdx file)
      (ofFilesFrom file i e files).2 := by
  induction files generalizing file i e with
  | nil => exact .nil
  | cons f rest ih =>
    rw [ofFilesFrom] at h ⊢
    exact .cons (fileAt_schemaFile h.left) (ih (file + 1) _ _ h.right)

theorem ofFilesFrom_declared (file i e : Nat) (files : List LoadedFile) {o : MessageOutline}
    (ho : o ∈ (ofFilesFrom file i e files).1.messages) :
    ∃ k f, files[k]? = some f ∧
      Declared f.source.decl.messages (f.source.package.getD []) (file + k) o := by
  induction files generalizing file i e with
  | nil => cases ho
  | cons f rest ih =>
    rw [ofFilesFrom] at ho
    rcases List.mem_append.mp ho with ho | ho
    · rw [messages_ofFile] at ho
      exact ⟨0, f, rfl, ofMessages_declared ⟨file, f.source.package.getD [], none⟩ i e
        (List.append_nil _).symm f.source.decl.messages (fun m hm => .top hm) o ho⟩
    · obtain ⟨k, g, hg, hdeclared⟩ := ih (file + 1) _ _ ho
      rw [Nat.add_assoc, Nat.add_comm 1 k] at hdeclared
      exact ⟨k + 1, g, hg, hdeclared⟩

theorem ofFilesFrom_messages_once (file i e : Nat) (files : List LoadedFile) :
    ((ofFilesFrom file i e files).2.flatMap (·.messages) ++
      (ofFilesFrom file i e files).1.messages.flatMap (·.messages)).Perm
      (List.range' i (ofFilesFrom file i e files).1.messages.length) := by
  induction files generalizing file i e with
  | nil => exact .nil
  | cons f rest ih =>
    have hfirst := messages_once_ofMessages ⟨file, f.source.package.getD [], none⟩ i e
      f.source.decl.messages
    have hrest := ih (file + 1) (i + (ofFile file i e f.source).messages.length)
      (e + (ofFile file i e f.source).enums.length)
    rw [← length_messages_ofMessages _ i e, ← messages_ofFile] at hfirst
    rw [ofFilesFrom, messages_append, List.flatMap_append, List.length_append,
      ← List.range'_append_1]
    refine List.Perm.trans ?_ (hfirst.append hrest)
    simp only [List.flatMap_cons, List.append_assoc, schemaFile]
    exact (List.perm_append_comm_assoc ..).append_left _

theorem ofFilesFrom_enums_once (file i e : Nat) (files : List LoadedFile) :
    ((ofFilesFrom file i e files).2.flatMap (·.enums) ++
      (ofFilesFrom file i e files).1.messages.flatMap (·.enums)).Perm
      (List.range' e (ofFilesFrom file i e files).1.enums.length) := by
  induction files generalizing file i e with
  | nil => exact .nil
  | cons f rest ih =>
    have hinner := enums_once_ofMessages ⟨file, f.source.package.getD [], none⟩ i e
      f.source.decl.messages
    have hrest := ih (file + 1) (i + (ofFile file i e f.source).messages.length)
      (e + (ofFile file i e f.source).enums.length)
    rw [← messages_ofFile] at hinner
    have hfirst : ((schemaFile i e f).enums ++
        (ofFile file i e f.source).messages.flatMap (·.enums)).Perm
        (List.range' e (ofFile file i e f.source).enums.length) := by
      rw [length_enums_ofFile, ← List.range'_append_1]
      exact List.perm_append_comm.trans (hinner.append_right _)
    rw [ofFilesFrom, messages_append, List.flatMap_append, length_enums_append,
      ← List.range'_append_1]
    refine List.Perm.trans ?_ (hfirst.append hrest)
    simp only [List.flatMap_cons, List.append_assoc]
    exact (List.perm_append_comm_assoc ..).append_left _

/-! ### All files -/

section All
variable (files : List LoadedFile)

theorem ofFiles_labelled (kind : Kind) : (ofFiles files).1.names.filterMap (label? kind) =
    ((ofFiles files).1.places kind).zipIdx.map fun x => (x.2, x.1.fullName, x.1.file) := by
  have hlabelled := ofFilesFrom_labelled 0 0 0 files kind
  cases kind <;> exact hlabelled

theorem ofFiles_nests {k : Nat} {m : MessageOutline}
    (h : (ofFiles files).1.messages[k]? = some m) : (ofFiles files).1.Nests k m := by
  have hnests := ofFilesFrom_nests 0 0 0 files (.whole _) h
  rwa [Nat.zero_add] at hnests

theorem ofFiles_at :
    List.Forall₂ (fun x entry => (ofFiles files).1.FileAt x.2 x.1 entry) files.zipIdx
      (ofFiles files).2 :=
  ofFilesFrom_at 0 0 0 files (.whole _)

theorem ofFiles_declared {o : MessageOutline} (ho : o ∈ (ofFiles files).1.messages) :
    ∃ f, files[o.file]? = some f ∧
      Declared f.source.decl.messages (f.source.package.getD []) o.file o := by
  obtain ⟨k, f, hf, hdeclared⟩ := ofFilesFrom_declared 0 0 0 files ho
  rw [Nat.zero_add] at hdeclared
  obtain rfl := hdeclared.1
  exact ⟨f, hf, hdeclared⟩

theorem ofFiles_messages_once :
    ((ofFiles files).2.flatMap (·.messages) ++
      (ofFiles files).1.messages.flatMap (·.messages)).Perm
      (List.range (ofFiles files).1.messages.length) := by
  rw [List.range_eq_range']
  exact ofFilesFrom_messages_once 0 0 0 files

theorem ofFiles_enums_once :
    ((ofFiles files).2.flatMap (·.enums) ++ (ofFiles files).1.messages.flatMap (·.enums)).Perm
      (List.range (ofFiles files).1.enums.length) := by
  rw [List.range_eq_range']
  exact ofFilesFrom_enums_once 0 0 0 files

theorem ofFiles_once (kind : Kind) :
    ((ofFiles files).2.flatMap (·.tops kind) ++
      (ofFiles files).1.messages.flatMap (·.nested kind)).Perm
      (List.range ((ofFiles files).1.places kind).length) := by
  cases kind with
  | message =>
    rw [places, List.length_map]
    exact ofFiles_messages_once files
  | enum =>
    rw [places, List.length_map]
    exact ofFiles_enums_once files

end All

end Outline

end Protobuf

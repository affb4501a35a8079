import Protobuf.Proofs.Schema.Generation
import Protobuf.Proofs.Schema.Rules

/-! What linking keeps is what is declared.

A field without a usable type and number is left out of its message, and a value that does not fit
in 32 bits is left out of its enum. Each of them is a flaw, so that nothing is ever missing from a
schema that linking gives: its messages and enums are those of its files, in the order of the walk
through the declarations, and have the declared fields and values in order (`messages_kept`,
`enums_kept`).

`rules_exact` puts that together with the rules: they find no flaw if and only if a declaration is
sound, and what is linked is sound and complete. -/
namespace Protobuf

/-! ### All declarations of a file -/

namespace Decl

mutual

/-- A message and all that are nested in it, each before those in it. -/
def Message.tree : Message → List Message
  | ⟨name, fields, messages, enums, reserved, settings, span⟩ =>
    ⟨name, fields, messages, enums, reserved, settings, span⟩ :: Message.trees messages

def Message.trees : List Message → List Message
  | [] => []
  | m :: rest => m.tree ++ Message.trees rest

end

mutual

/-- The enums in a message, those in nested messages first. -/
def Message.enumTree : Message → List Enum
  | ⟨_, _, messages, enums, _, _, _⟩ => Message.enumTrees messages ++ enums

def Message.enumTrees : List Message → List Enum
  | [] => []
  | m :: rest => m.enumTree ++ Message.enumTrees rest

end

/-- The messages that a file declares, also those that are nested. -/
def File.allMessages (f : File) : List Message :=
  Message.trees f.messages

/-- The enums that a file declares, also those in messages. -/
def File.allEnums (f : File) : List Enum :=
  Message.enumTrees f.messages ++ f.enums

end Decl

/-! ### The outline has these declarations -/

namespace Outline

theorem enumDecls_ofEnums (site : Site) (next : Nat) (enums : List Decl.Enum) :
    (ofEnums site next enums).enums.map (·.decl) = enums := by
  induction enums generalizing next with
  | nil => rfl
  | cons e rest ih =>
    rw [ofEnums, enums_append, List.map_append, ih]
    rfl

mutual

theorem decls_ofMessage (site : Site) (i e : Nat) :
    ∀ m, (ofMessage site i e m).messages.map (·.decl) = m.tree
  | ⟨name, fields, messages, enums, reserved, settings, span⟩ => by
    rw [ofMessage, messages_append, messages_append, messages_ofEnums, List.append_nil,
      List.map_append, decls_ofMessages, Decl.Message.tree]
    rfl

theorem decls_ofMessages (site : Site) (i e : Nat) :
    ∀ messages, (ofMessages site i e messages).messages.map (·.decl) =
      Decl.Message.trees messages
  | [] => rfl
  | m :: rest => by
    rw [ofMessages, messages_append, List.map_append, decls_ofMessage, decls_ofMessages,
      Decl.Message.trees]

end

mutual

theorem enumDecls_ofMessage (site : Site) (i e : Nat) :
    ∀ m, (ofMessage site i e m).enums.map (·.decl) = m.enumTree
  | ⟨name, fields, messages, enums, reserved, settings, span⟩ => by
    rw [ofMessage, enums_append, enums_append, List.nil_append, List.map_append,
      enumDecls_ofMessages, enumDecls_ofEnums, Decl.Message.enumTree]

theorem enumDecls_ofMessages (site : Site) (i e : Nat) :
    ∀ messages, (ofMessages site i e messages).enums.map (·.decl) =
      Decl.Message.enumTrees messages
  | [] => rfl
  | m :: rest => by
    rw [ofMessages, enums_append, List.map_append, enumDecls_ofMessage, enumDecls_ofMessages,
      Decl.Message.enumTrees]

end

theorem decls_ofFile (file i e : Nat) (f : SourceFile) :
    (ofFile file i e f).messages.map (·.decl) = f.decl.allMessages := by
  rw [ofFile, messages_append, messages_append, messages_ofEnums, List.append_nil, List.nil_append,
    decls_ofMessages, Decl.File.allMessages]

theorem enumDecls_ofFile (file i e : Nat) (f : SourceFile) :
    (ofFile file i e f).enums.map (·.decl) = f.decl.allEnums := by
  rw [ofFile, enums_append, enums_append, List.nil_append, List.map_append, enumDecls_ofMessages,
    enumDecls_ofEnums, Decl.File.allEnums]

theorem decls_ofFilesFrom (file i e : Nat) (files : List LoadedFile) :
    (ofFilesFrom file i e files).1.messages.map (·.decl) =
      files.flatMap (·.source.decl.allMessages) := by
  induction files generalizing file i e with
  | nil => rfl
  | cons f rest ih =>
    rw [ofFilesFrom, messages_append, List.map_append, decls_ofFile, ih, List.flatMap_cons]

/-- The enums of all files, each with the language level of its file. -/
theorem enumDecls_ofFilesFrom {level : Nat → Decl.Edition} (file i e : Nat)
    {files : List LoadedFile} (hlevel : ∀ {k : Nat} {f : LoadedFile}, files[k]? = some f →
      level (file + k) = f.source.decl.edition) :
    (ofFilesFrom file i e files).1.enums.map (fun x => (level x.file, x.decl)) =
      files.flatMap fun f => f.source.decl.allEnums.map (f.source.decl.edition, ·) := by
  induction files generalizing file i e with
  | nil => rfl
  | cons f rest ih =>
    have hfile := (ofFile_inFiles (p := (· = file)) rfl i e f.source).enums
    have hfirst : level file = f.source.decl.edition := hlevel (k := 0) rfl
    have hhere : (ofFile file i e f.source).enums.map (fun x => (level x.file, x.decl)) =
        f.source.decl.allEnums.map (f.source.decl.edition, ·) := by
      rw [← enumDecls_ofFile file i e, List.map_map]
      refine List.map_congr_left fun x hx => ?_
      rw [hfile x hx, hfirst]
      rfl
    rw [ofFilesFrom, enums_append, List.map_append, hhere, List.flatMap_cons]
    refine congrArg (_ ++ ·) (ih (file + 1) _ _ ?_)
    intro k g hg
    rw [Nat.add_assoc, Nat.add_comm 1 k]
    exact hlevel hg

end Outline

/-! ### What is linked -/

/-- A message has the declared fields, in order, with their names and numbers. -/
structure Message.Keeps (m : Message) (d : Decl.Message) : Prop where
  name : m.name = d.name.value
  fields : m.fields.map (fun f => (f.name, (f.number : Int))) =
    d.fields.map fun f => (f.name.value, f.number.toInt)

/-- An enum has the declared values, in order, with their names and numbers. -/
structure Enum.Keeps (e : Enum) (d : Decl.Enum) : Prop where
  name : e.name = d.name.value
  values : e.values.map (fun v => (v.name, v.number.toInt)) =
    d.values.map fun v => (v.name.value, v.number.toInt)

/-- A relation between lists that holds at each place. -/
theorem forall₂_of_map {α β γ : Type} {R : γ → β → Prop} {key : α → γ} {l : List α} {l' : List β}
    (hlength : l.length = l'.length)
    (h : ∀ {i : Nat} {a : α}, l[i]? = some a → ∃ b, l'[i]? = some b ∧ R (key a) b) :
    List.Forall₂ R (l.map key) l' := by
  rw [List.forall₂_map_left_iff, List.forall₂_iff_get]
  refine ⟨hlength, fun i hi hi' => ?_⟩
  obtain ⟨b, hb, hR⟩ := h (List.getElem?_eq_getElem hi)
  rw [List.getElem?_eq_getElem hi', Option.some.injEq] at hb
  rw [← hb] at hR
  exact hR

namespace Linking
variable {files : List LoadedFile} {s : Schema} {i : Nat}

theorem message_keeps (h : link files = .ok s) {o : MessageOutline}
    (ho : (Outline.ofFiles files).1.messages[i]? = some o) :
    ∃ m, s.messages[i]? = some m ∧ FieldRules.Sound o.decl ∧ m.Keeps o.decl := by
  obtain ⟨m, hm, hfields⟩ := fields_of_link h ho
  obtain ⟨m', hm', hframe⟩ := exists_frame_of_link h ho
  cases hm.symm.trans hm'
  have hflaws := (List.append_eq_nil_iff.mp (message_flaws_of_link h ho)).1
  refine ⟨m, hm, FieldRules.flaws_eq_nil_iff.mp hflaws, congrArg Message.name hframe, ?_⟩
  refine (map_eq_of_forall₂ hfields ?_).symm
  intro f g hlinked
  obtain ⟨linked, hlinked, rfl⟩ := hlinked
  obtain ⟨_, hnumber, hname, _⟩ := eq_of_field hlinked
  rw [boxField_name, boxField_number, hname, (FieldRules.number?_eq_some_iff.mp hnumber).2]

theorem enum_keeps (h : link files = .ok s) {o : EnumOutline}
    (ho : (Outline.ofFiles files).1.enums[i]? = some o) :
    ∃ e, s.enums[i]? = some e ∧ EnumRules.Sound (edition files o.file) o.decl ∧
      e.Keeps o.decl := by
  obtain ⟨e, he, hvalues⟩ := values_of_link h ho
  obtain ⟨e', he', hframe⟩ := exists_enumFrame_of_link h ho
  cases he.symm.trans he'
  refine ⟨e, he, EnumRules.flaws_eq_nil_iff.mp (enum_flaws_of_link h ho),
    congrArg Enum.name hframe, ?_⟩
  refine (map_eq_of_forall₂ hvalues ?_).symm
  intro v w hvalue
  rw [hvalue.1, Decl.IntLit.toInt32?_eq_some_iff.mp hvalue.2]

theorem length_messages_of_link (h : link files = .ok s) :
    (Outline.ofFiles files).1.messages.length = s.messages.length := by
  simpa using congrArg List.length (frames_of_link h).symm

theorem length_enums_of_link (h : link files = .ok s) :
    (Outline.ofFiles files).1.enums.length = s.enums.length := by
  simpa using congrArg List.length (enumFrames_of_link h).symm

/-- The messages of a linked schema are those declared, and have all their fields. -/
theorem messages_kept (h : link files = .ok s) :
    List.Forall₂ (fun d m => FieldRules.Sound d ∧ m.Keeps d)
      (files.flatMap (·.source.decl.allMessages)) s.messages := by
  rw [← Outline.decls_ofFilesFrom 0 0 0]
  exact forall₂_of_map (length_messages_of_link h) fun ho => message_keeps h ho

/-- The enums of a linked schema are those declared, and have all their values. -/
theorem enums_kept (h : link files = .ok s) :
    List.Forall₂ (fun d e => EnumRules.Sound d.1 d.2 ∧ e.Keeps d.2)
      (files.flatMap fun f => f.source.decl.allEnums.map (f.source.decl.edition, ·)) s.enums := by
  have hlevel : ∀ {k : Nat} {f : LoadedFile}, files[k]? = some f →
      edition files (0 + k) = f.source.decl.edition := by
    intro k f hf
    rw [Nat.zero_add, edition_eq hf]
  rw [← Outline.enumDecls_ofFilesFrom 0 0 0 hlevel]
  exact forall₂_of_map (length_enums_of_link h) fun ho => enum_keeps h ho

/-- **Fields and enums are checked exactly, and nothing is dropped.** The rules find no flaw if and
only if the fields of a message are sound, or if an enum is. And if files are linked, all of their
messages and enums are sound and are there in order, with one field for each that is declared, and
one value for each, in order and with the same names and numbers. -/
theorem rules_exact :
    (∀ fullName m, FieldRules.flaws fullName m = [] ↔ FieldRules.Sound m) ∧
    (∀ edition e, EnumRules.flaws edition e = [] ↔ EnumRules.Sound edition e) ∧
    ∀ files s, link files = .ok s →
      List.Forall₂ (fun d m => FieldRules.Sound d ∧ m.Keeps d)
        (files.flatMap (·.source.decl.allMessages)) s.messages ∧
      List.Forall₂ (fun d e => EnumRules.Sound d.1 d.2 ∧ e.Keeps d.2)
        (files.flatMap fun f => f.source.decl.allEnums.map (f.source.decl.edition, ·)) s.enums := by
  refine ⟨?_, ?_, ?_⟩
  · intro fullName m
    exact FieldRules.flaws_eq_nil_iff
  · intro edition e
    exact EnumRules.flaws_eq_nil_iff
  · intro files s h
    exact ⟨messages_kept h, enums_kept h⟩

/-- The gauge is linked, with all that is declared. The fields of another message are not sound: two
of them, with a useless one between them, share a number. -/
theorem rules_exact_gauge :
    link Gauge.files = .ok Gauge.schema ∧
      List.Forall₂ (fun d m => FieldRules.Sound d ∧ m.Keeps d)
        (Gauge.files.flatMap (·.source.decl.allMessages)) Gauge.schema.messages ∧
      ¬ FieldRules.Sound (Tree.messageDecl "Dial"
        [Tree.fieldDecl (some .optional) (.scalar .int32) "hand" 7,
          Tree.fieldDecl (some .optional) (.scalar .int32) "face" 19000,
          Tree.fieldDecl (some .optional) (.scalar .int32) "rim" 7]) ∧
      ¬ EnumRules.Sound .proto3 (Mail.enumDecl "Unit" [Mail.valueDecl "MM" 1]) := by
  obtain ⟨hfields, henums, hlinked⟩ := rules_exact
  refine ⟨Gauge.link_files, (hlinked _ _ Gauge.link_files).1, ?_, ?_⟩
  · rw [← hfields "Dial"]
    decide
  · rw [← henums]
    decide

end Linking

end Protobuf

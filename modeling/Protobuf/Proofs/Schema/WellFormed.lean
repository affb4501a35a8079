import Protobuf.Proofs.Schema.Rules
import Protobuf.Record.Basic
import Protobuf.Schema.Linking

/-! What linking promises of a schema.

Reading and writing messages relies on their field numbers: each one fits into a key, and no two
fields of a message share one. It also relies on packed fields having a type that can be packed,
which no message has, and on messages having a presence.
Linking checks the declarations for that and gives a schema only if no file has a flaw, so that
every linked schema is well formed (`wellFormed_of_link`). That a flaw is never lost, although only
one file is reported, comes from the outline: every definition in it belongs to a file. -/
namespace Protobuf

/-- What reading and writing relies on in a field. -/
structure Field.WellFormed (f : Field) : Prop where
  number_pos : 1 ≤ f.number
  number_le : f.number ≤ Key.maxNumber
  packable : f.packed = true → f.type.codec.isPackable = true
  unpacked : f.type.isMessage = true → f.packed = false
  presence : f.cardinality = .implicit → f.type.isMessage = false

/-- What reading and writing relies on in a schema. -/
structure Schema.WellFormed (s : Schema) : Prop where
  field : ∀ {type : Nat} {f : Field}, f ∈ s.fields type → f.WellFormed
  distinct : ∀ type, (s.fields type).Pairwise fun f g => f.number ≠ g.number

/-! ### Numbers of fields -/

theorem FieldRules.number?_range {n : Decl.IntLit} {number : Nat} (h : number? n = some number) :
    1 ≤ number ∧ number ≤ Key.maxNumber := by
  obtain ⟨⟨hpos, hle, _⟩, hnumber⟩ := number?_eq_some_iff.mp h
  have hmax : Key.maxNumber = 536870911 := rfl
  omega

/-! ### Linked fields -/

namespace Linking

theorem codec_isPackable {c : Cardinality} {type : FieldType} (h : isPackable c type = true) :
    type.codec.isPackable = true := by
  have htype := (Bool.and_eq_true_iff.mp h).2
  cases type with
  | scalar type => exact type.isPackable_codec.trans htype
  | message index => cases htype
  | enum index => rfl

theorem isPackable_message {c : Cardinality} {type : FieldType} (h : type.isMessage = true) :
    isPackable c type = false := by
  cases type with
  | message index => exact Bool.and_false _
  | scalar type => cases h
  | enum index => cases h

theorem packable_of_packed {f : Decl.Field} {packable : Bool}
    (h : (packed f packable).value = true) : packable = true := by
  unfold packed at h
  split at h
  · exact h
  · dsimp only at h
    split at h
    · split at h
      · assumption
      · cases h
    · cases h

theorem isMessage_of_implicit {label : Option Decl.FieldLabel} {type : FieldType}
    (h : cardinality label type = .implicit) : type.isMessage = false := by
  unfold cardinality at h
  split at h
  · cases h
  · cases h
  · cases h
  · cases type with
    | scalar type => rfl
    | message index => cases h
    | enum index => rfl

theorem field_wellFormed {ctx : Context} {scope : QualifiedName} {f : Decl.Field} {g : Field}
    (h : (field ctx scope f).value = some g) :
    FieldRules.number? f.number = some g.number ∧ g.WellFormed := by
  unfold field at h
  dsimp only at h
  split at h
  · rename_i t number _ hnumber
    cases h
    obtain ⟨hpos, hle⟩ := FieldRules.number?_range hnumber
    refine ⟨hnumber, hpos, hle, fun hpacked => codec_isPackable (packable_of_packed hpacked),
      fun hmessage => ?_, isMessage_of_implicit⟩
    exact Bool.eq_false_iff.mpr fun hpacked =>
      Bool.false_ne_true ((isPackable_message hmessage).symm.trans (packable_of_packed hpacked))
  · cases h

/-- The linked fields of a message without flaws. -/
theorem message_wellFormed {ctx : Context} {m : MessageOutline} (h : (message ctx m).flaws = []) :
    (∀ g ∈ (message ctx m).value.fields, g.WellFormed) ∧
      (message ctx m).value.fields.Pairwise fun f g => f.number ≠ g.number := by
  have hflaws := (List.append_eq_nil_iff.mp h).1
  have hfields : (message ctx m).value.fields =
      m.decl.fields.filterMap fun f => (field ctx m.fullName f).value := by
    simp only [message, List.filterMap_map]
    rfl
  rw [hfields]
  constructor
  · intro g hg
    obtain ⟨f, _, hf⟩ := List.mem_filterMap.mp hg
    exact (field_wellFormed hf).2
  · have hnumbers := List.pairwise_map.mp (FieldRules.flaws_eq_nil_iff.mp hflaws).numbers
    refine hnumbers.filterMap _ ?_
    intro f f' hne g hg g' hg' hsame
    have hnumber := (FieldRules.number?_eq_some_iff.mp (field_wellFormed hg).1).2
    have hnumber' := (FieldRules.number?_eq_some_iff.mp (field_wellFormed hg').1).2
    exact hne (by rw [← hnumber, ← hnumber', hsame])

/-! ### Boxing changes neither numbers nor types -/

theorem boxField_number (components : List Nat) (owner : Nat) (f : Field) :
    (boxField components owner f).number = f.number := by
  unfold boxField
  split <;> rfl

theorem boxField_wellFormed {f : Field} (h : f.WellFormed) (components : List Nat)
    (owner : Nat) : (boxField components owner f).WellFormed := by
  unfold boxField
  split
  · exact ⟨h.number_pos, h.number_le, h.packable, h.unpacked, h.presence⟩
  · exact h

end Linking

/-! ### Every definition belongs to a file -/

namespace Outline

/-- The files of all messages and enums are such. -/
structure InFiles (p : Nat → Prop) (o : Outline) : Prop where
  messages : ∀ m ∈ o.messages, p m.file
  enums : ∀ e ∈ o.enums, p e.file

theorem InFiles.append {p : Nat → Prop} {a b : Outline} (ha : a.InFiles p) (hb : b.InFiles p) :
    (a ++ b).InFiles p where
  messages m hm := (List.mem_append.mp hm).elim (ha.messages m) (hb.messages m)
  enums e he := (List.mem_append.mp he).elim (ha.enums e) (hb.enums e)

theorem InFiles.empty {p : Nat → Prop} : Outline.empty.InFiles p where
  messages _ hm := nomatch hm
  enums _ he := nomatch he

theorem ofEnums_inFiles {p : Nat → Prop} (site : Site) (hsite : p site.file) (next : Nat)
    (enums : List Decl.Enum) : (ofEnums site next enums).InFiles p := by
  induction enums generalizing next with
  | nil => exact .empty
  | cons e rest ih =>
    have hself : (ofEnum site next e).InFiles p := ⟨by simp [ofEnum], by simp [ofEnum, hsite]⟩
    exact hself.append (ih (next + 1))

mutual

theorem ofMessage_inFiles {p : Nat → Prop} (site : Site) (hsite : p site.file) (i e : Nat) :
    ∀ m, (ofMessage site i e m).InFiles p
  | ⟨name, _, messages, enums, _, _, _⟩ => by
    have hinside : p (Site.mk site.file (site.scope ++ [name.value]) (some i)).file := hsite
    rw [ofMessage]
    refine InFiles.append (InFiles.append ?_ ?_) ?_
    · exact ⟨by simp [hsite], by simp⟩
    · exact ofMessages_inFiles _ hinside (i + 1) e messages
    · exact ofEnums_inFiles _ hinside (e + enumsCount messages) enums

theorem ofMessages_inFiles {p : Nat → Prop} (site : Site) (hsite : p site.file) (i e : Nat) :
    ∀ messages, (ofMessages site i e messages).InFiles p
  | [] => .empty
  | m :: rest => by
    rw [ofMessages]
    exact (ofMessage_inFiles site hsite i e m).append (ofMessages_inFiles site hsite _ _ rest)

end

theorem ofFile_inFiles {p : Nat → Prop} {file : Nat} (hfile : p file) (i e : Nat) (f : SourceFile) :
    (ofFile file i e f).InFiles p := by
  refine InFiles.append (InFiles.append ⟨by simp, by simp⟩ ?_) ?_
  · exact ofMessages_inFiles _ hfile i e f.decl.messages
  · exact ofEnums_inFiles _ hfile _ f.decl.enums

theorem ofFilesFrom_inFiles (file i e : Nat) (files : List LoadedFile) :
    (ofFilesFrom file i e files).1.InFiles (· < file + files.length) := by
  induction files generalizing file i e with
  | nil => exact .empty
  | cons f rest ih =>
    rw [ofFilesFrom]
    refine InFiles.append (ofFile_inFiles (by simp) i e f.source) ?_
    have hlength : file + (f :: rest).length = file + 1 + rest.length := by
      rw [List.length_cons]
      omega
    rw [hlength]
    exact ih (file + 1) _ _

theorem ofFiles_inFiles (files : List LoadedFile) :
    (ofFiles files).1.InFiles (· < files.length) := by
  have hrange := ofFilesFrom_inFiles 0 0 0 files
  rwa [Nat.zero_add] at hrange

end Outline

/-! ### No flaw is lost -/

namespace Linking

/-- Findings in files that exist are reported, if there are any. -/
theorem findings_eq_nil {files : List LoadedFile} {found : Findings}
    (hfiles : ∀ x ∈ found, x.1 < files.length) (h : report? files found = none) : found = [] := by
  cases found with
  | nil => rfl
  | cons first rest =>
    have hlt := hfiles first (by simp)
    simp only [report?, List.getElem?_eq_getElem hlt] at h
    have hnone := Report.ofSorted?_mergeSort_eq_none_iff.mp h
    simp at hnone

theorem mem_findings {α : Type} {checked : List (Nat × Checked α)} {x : Nat × Flaw} :
    x ∈ findings checked ↔ ∃ c ∈ checked, c.1 = x.1 ∧ x.2 ∈ c.2.flaws := by
  simp only [findings, List.mem_flatMap, List.mem_map]
  constructor
  · intro h
    obtain ⟨c, hc, flaw, hflaw, hx⟩ := h
    rw [← hx]
    exact ⟨c, hc, rfl, hflaw⟩
  · intro h
    obtain ⟨c, hc, hfile, hflaw⟩ := h
    exact ⟨c, hc, x.2, hflaw, by rw [hfile]⟩

theorem flaws_eq_nil {α : Type} {checked : List (Nat × Checked α)} (h : findings checked = [])
    {c : Nat × Checked α} (hc : c ∈ checked) : c.2.flaws = [] := by
  rw [List.eq_nil_iff_forall_not_mem]
  intro flaw hflaw
  have hmem : (c.1, flaw) ∈ findings checked := mem_findings.mpr ⟨c, hc, rfl, hflaw⟩
  rw [h] at hmem
  cases hmem

/-- The names of these files. -/
def registryOf (files : List LoadedFile) : Registry :=
  (Registry.enter (fileName files) [] (Outline.ofFiles files).1.names).1

/-- The enums of these files, as they are linked. -/
def enumsOf (files : List LoadedFile) : List (Nat × Checked Enum) :=
  checkEnums files (Outline.ofFiles files).1

/-- The messages of these files, as they are linked. -/
def messagesOf (files : List LoadedFile) : List (Nat × Checked Message) :=
  checkMessages files (Outline.ofFiles files).1 (registryOf files)
    ((enumsOf files).map (·.2.value))

/-- A linked schema has the messages and enums of its files, which are not to be reported on. -/
theorem eq_of_link {files : List LoadedFile} {s : Schema} (h : link files = .ok s) :
    s = ⟨(Outline.ofFiles files).2, box ((messagesOf files).map (·.2.value)),
        (enumsOf files).map (·.2.value)⟩ ∧
      report? files (findings (enumsOf files) ++ findings (messagesOf files)) = none := by
  simp only [link] at h
  split at h
  · cases h
  · split at h
    · cases h
    · rename_i hreport
      cases h
      exact ⟨rfl, hreport⟩

/-- A linked schema has no findings: all of them would be in files that exist. -/
theorem findings_of_link {files : List LoadedFile} {s : Schema} (h : link files = .ok s) :
    findings (enumsOf files) ++ findings (messagesOf files) = [] := by
  have hrange := Outline.ofFiles_inFiles files
  refine findings_eq_nil ?_ (eq_of_link h).2
  intro x hx
  rcases List.mem_append.mp hx with hx | hx
  · obtain ⟨c, hc, hfile, _⟩ := mem_findings.mp hx
    obtain ⟨e, he, rfl⟩ := List.mem_map.mp hc
    exact hfile ▸ hrange.enums e he
  · obtain ⟨c, hc, hfile, _⟩ := mem_findings.mp hx
    obtain ⟨m, hm, rfl⟩ := List.mem_map.mp hc
    exact hfile ▸ hrange.messages m hm

/-- The messages of a linked schema are boxed ones, of which none had flaws. -/
theorem exists_of_link {files : List LoadedFile} {s : Schema} (h : link files = .ok s) :
    ∃ messages : List Message, s.messages = box messages ∧
      ∀ m ∈ messages, (∀ f ∈ m.fields, f.WellFormed) ∧
        m.fields.Pairwise fun f g => f.number ≠ g.number := by
  have hnil := findings_of_link h
  obtain ⟨rfl, _⟩ := eq_of_link h
  refine ⟨_, rfl, ?_⟩
  intro m hm
  obtain ⟨c, hc, rfl⟩ := List.mem_map.mp hm
  have hflaws := flaws_eq_nil (List.append_eq_nil_iff.mp hnil).2 hc
  obtain ⟨o, _, rfl⟩ := List.mem_map.mp hc
  exact message_wellFormed hflaws

theorem fields_of_box {s : Schema} {messages : List Message} (h : s.messages = box messages)
    (type : Nat) :
    s.fields type = (messages[type]?.elim [] (·.fields)).map
      (boxField (containment messages).componentNumbers type) := by
  unfold Schema.fields
  rw [h, box, List.getElem?_mapIdx]
  cases messages[type]? with
  | none => rfl
  | some m => rfl

theorem mem_fields_of_box {s : Schema} {messages : List Message} (h : s.messages = box messages)
    {type : Nat} {f : Field} :
    f ∈ s.fields type ↔ ∃ m, messages[type]? = some m ∧ ∃ g ∈ m.fields,
      boxField (containment messages).componentNumbers type g = f := by
  rw [fields_of_box h, List.mem_map]
  cases messages[type]? <;> simp

/-- **Every linked schema is well formed.** -/
theorem wellFormed_of_link {files : List LoadedFile} {s : Schema} (h : link files = .ok s) :
    s.WellFormed := by
  obtain ⟨messages, hbox, hmessages⟩ := exists_of_link h
  refine ⟨?_, ?_⟩
  · intro type f hf
    obtain ⟨m, hm, g, hg, rfl⟩ := (mem_fields_of_box hbox).mp hf
    exact boxField_wellFormed ((hmessages m (List.mem_of_getElem? hm)).1 g hg) _ type
  · intro type
    rw [fields_of_box hbox, List.pairwise_map]
    simp only [boxField_number]
    cases hm : messages[type]? with
    | none => exact .nil
    | some m => exact (hmessages m (List.mem_of_getElem? hm)).2

end Linking

end Protobuf

import Protobuf.Proofs.Schema.Generation
import Protobuf.Proofs.Schema.Renumbering
import Protobuf.Proofs.Source.LexicalFaults
import Protobuf.Proofs.Source.PlainNames

/-! Names that are declared twice.

`SourceFile.entries` lists the full names that a file declares: its packages, and its messages,
enums and enum values with those nested in them, where the values of an enum are its siblings.

`duplicates_exact`: a clash of names is reported if and only if two entries of the files have the
same full name and are not both packages; and in a linked schema, looking up the full name of a
definition gives that definition. -/
namespace Protobuf

/-! ### The names that a file declares -/

/-- A full name, and whether it is that of a package. -/
structure Entry where
  name : QualifiedName
  isPackage : Bool
  deriving DecidableEq

namespace Decl

/-- An enum and its values, which are its siblings. -/
def Enum.entries (scope : QualifiedName) (e : Enum) : List Entry :=
  (e.name :: e.values.map (·.name)).map fun name => ⟨scope ++ [name.value], false⟩

mutual

/-- A message and what is nested in it. -/
def Message.entries (scope : QualifiedName) : Message → List Entry
  | ⟨name, _, messages, enums, _, _, _⟩ =>
    ⟨scope ++ [name.value], false⟩ ::
      (Message.entriesOf (scope ++ [name.value]) messages ++
        enums.flatMap (·.entries (scope ++ [name.value])))

def Message.entriesOf (scope : QualifiedName) : List Message → List Entry
  | [] => []
  | m :: rest => m.entries scope ++ Message.entriesOf scope rest

end

end Decl

/-- The package of a file with those around it, and what the file declares in it. -/
def SourceFile.entries (f : SourceFile) : List Entry :=
  let scope := f.package.getD []
  scope.inits.tail.map (⟨·, true⟩) ++ Decl.Message.entriesOf scope f.decl.messages ++
    f.decl.enums.flatMap (·.entries scope)

/-! ### The outline has these names -/

def NameEntry.entry (entry : NameEntry) : Entry :=
  ⟨entry.name, entry.definition = .package⟩

namespace Outline

theorem entries_append (a b : Outline) :
    (a ++ b).names.map NameEntry.entry =
      a.names.map NameEntry.entry ++ b.names.map NameEntry.entry :=
  List.map_append

theorem entries_ofEnums (site : Site) (next : Nat) (enums : List Decl.Enum) :
    (ofEnums site next enums).names.map NameEntry.entry =
      enums.flatMap (·.entries site.scope) := by
  induction enums generalizing next with
  | nil => rfl
  | cons e rest ih =>
    rw [ofEnums, entries_append, ih, List.flatMap_cons]
    simp [ofEnum, enumNames, Decl.Enum.entries, NameEntry.entry, Function.comp_def]

mutual

theorem entries_ofMessage (site : Site) (i e : Nat) :
    ∀ m, (ofMessage site i e m).names.map NameEntry.entry = m.entries site.scope
  | ⟨name, _, messages, enums, _, _, _⟩ => by
    rw [ofMessage, entries_append, entries_append, entries_ofEnums, entries_ofMessages,
      Decl.Message.entries]
    rfl

theorem entries_ofMessages (site : Site) (i e : Nat) :
    ∀ messages, (ofMessages site i e messages).names.map NameEntry.entry =
      Decl.Message.entriesOf site.scope messages
  | [] => rfl
  | m :: rest => by
    rw [ofMessages, entries_append, entries_ofMessage, entries_ofMessages,
      Decl.Message.entriesOf]

end

theorem entries_packageNames (file : Nat) (p : Decl.Package) :
    (packageNames file p).map NameEntry.entry = p.name.names.inits.tail.map (⟨·, true⟩) := by
  refine List.ext_getElem (by simp [packageNames]) fun n _ _ => ?_
  simp [packageNames, NameEntry.entry, List.getElem_inits]

theorem entries_ofFile (file i e : Nat) (f : SourceFile) :
    (ofFile file i e f).names.map NameEntry.entry = f.entries := by
  rw [ofFile, entries_append, entries_append, entries_ofMessages, entries_ofEnums,
    SourceFile.entries, SourceFile.package]
  cases f.decl.package with
  | none => rfl
  | some p => exact congrArg (· ++ _ ++ _) (entries_packageNames file p)

theorem entries_ofFilesFrom (file i e : Nat) (files : List LoadedFile) :
    (ofFilesFrom file i e files).1.names.map NameEntry.entry =
      files.flatMap (·.source.entries) := by
  induction files generalizing file i e with
  | nil => rfl
  | cons f rest ih => rw [ofFilesFrom, entries_append, entries_ofFile, ih, List.flatMap_cons]

end Outline

/-! ### Full names are plain -/

theorem QualifiedName.plain_concat {scope : QualifiedName} {name : String}
    (hscope : ∀ part ∈ scope, IsPlain part) (hname : IsPlain name) :
    QualifiedName.Plain (scope ++ [name]) :=
  ⟨by simp, forall_mem_concat hscope hname⟩

theorem Decl.Enum.entries_plain {scope : QualifiedName} {enums : List Decl.Enum}
    (hscope : ∀ part ∈ scope, IsPlain part) (h : ∀ e ∈ enums, e.Plain) :
    ∀ entry ∈ enums.flatMap (·.entries scope), entry.name.Plain := by
  intro entry hentry
  obtain ⟨e, he, hentry⟩ := List.mem_flatMap.mp hentry
  obtain ⟨name, hname, rfl⟩ := List.mem_map.mp hentry
  refine QualifiedName.plain_concat hscope ?_
  rcases List.mem_cons.mp hname with rfl | hname
  · exact (h e he).name
  · obtain ⟨v, hv, rfl⟩ := List.mem_map.mp hname
    exact (h e he).values v hv

mutual

theorem Decl.Message.entries_plain (scope : QualifiedName) (hscope : ∀ part ∈ scope, IsPlain part) :
    ∀ m : Decl.Message, m.Plain → ∀ entry ∈ m.entries scope, entry.name.Plain
  | ⟨name, fields, messages, enums, _, _, _⟩, h => by
    obtain ⟨hname, -, hmessages, henums⟩ := h
    have hinside := QualifiedName.plain_concat hscope hname
    rw [Decl.Message.entries]
    refine List.forall_mem_cons.mpr ⟨hinside, List.forall_mem_append.mpr ⟨?_, ?_⟩⟩
    · exact Decl.Message.entriesOf_plain _ hinside.parts messages hmessages
    · exact Decl.Enum.entries_plain hinside.parts henums

theorem Decl.Message.entriesOf_plain (scope : QualifiedName)
    (hscope : ∀ part ∈ scope, IsPlain part) : ∀ messages : List Decl.Message,
      (∀ m ∈ messages, m.Plain) → ∀ entry ∈ entriesOf scope messages, entry.name.Plain
  | [], _ => nofun
  | m :: rest, h => by
    rw [List.forall_mem_cons] at h
    rw [Decl.Message.entriesOf]
    exact List.forall_mem_append.mpr ⟨Decl.Message.entries_plain scope hscope m h.1,
      Decl.Message.entriesOf_plain scope hscope rest h.2⟩

end

theorem mem_tail_inits_iff {α : Type} {l scope : List α} :
    l ∈ scope.inits.tail ↔ l <+: scope ∧ l ≠ [] := by
  cases scope with
  | nil => simp
  | cons first rest =>
    rw [List.inits_cons, List.tail_cons, List.mem_map]
    constructor
    · intro h
      obtain ⟨others, hothers, rfl⟩ := h
      exact ⟨List.prefix_cons_inj first |>.mpr ((List.mem_inits ..).mp hothers), nofun⟩
    · intro h
      obtain ⟨hbegins, hne⟩ := h
      obtain ⟨head, others, rfl⟩ := List.exists_cons_of_ne_nil hne
      obtain ⟨rfl, hothers⟩ := List.cons_prefix_cons.mp hbegins
      exact ⟨others, (List.mem_inits ..).mpr hothers, rfl⟩

theorem QualifiedName.inits_plain {scope : QualifiedName} (hscope : ∀ part ∈ scope, IsPlain part) :
    ∀ name ∈ scope.inits.tail, QualifiedName.Plain name := by
  intro name hname
  obtain ⟨hbegins, hne⟩ := mem_tail_inits_iff.mp hname
  exact ⟨hne, fun part hpart => hscope part (hbegins.mem hpart)⟩

theorem SourceFile.entries_plain {f : SourceFile} (h : f.decl.Plain) :
    ∀ entry ∈ f.entries, entry.name.Plain := by
  have hscope : ∀ part ∈ f.package.getD [], IsPlain part := by
    rw [SourceFile.package]
    cases hpackage : f.decl.package with
    | none => exact nofun
    | some p => exact List.forall_mem_map.mpr (h.package p hpackage)
  refine List.forall_mem_append.mpr ⟨List.forall_mem_append.mpr ⟨?_, ?_⟩, ?_⟩
  · exact List.forall_mem_map.mpr (QualifiedName.inits_plain hscope)
  · exact Decl.Message.entriesOf_plain _ hscope _ h.messages
  · exact Decl.Enum.entries_plain hscope h.enums

/-! ### Clashes -/

/-- Whether a flaw is that a name is declared twice. -/
def Flaw.isDuplicate : Flaw → Bool
  | duplicateName .. | duplicateNameInImport .. => true
  | _ => false

/-- Two entries may both be there: their names differ, or both are packages. -/
def Entry.Compatible (a b : Entry) : Prop :=
  a.name = b.name → a.isPackage = true ∧ b.isPackage = true

instance : Std.Symm Entry.Compatible :=
  ⟨fun _ _ h hname => (h hname.symm).symm⟩

/-- Two entries have the same full name and are not both packages. -/
def Entry.Clash (a b : Entry) : Prop :=
  a.name.dotted = b.name.dotted ∧ ¬ (a.isPackage = true ∧ b.isPackage = true)

namespace Linking
variable {files : List LoadedFile} {s : Schema}

theorem clashFree_iff_entries :
    ClashFree files ↔ (files.flatMap (·.source.entries)).Pairwise Entry.Compatible := by
  rw [clashFree_iff, ← Outline.entries_ofFilesFrom 0 0 0 files, List.pairwise_map]
  simp only [Entry.Compatible, NameEntry.entry, decide_eq_true_eq]
  rfl

theorem entries_plain (hplain : ∀ f ∈ files, f.source.decl.Plain) {entry : Entry}
    (h : entry ∈ files.flatMap (·.source.entries)) : entry.name.Plain := by
  obtain ⟨f, hf, hentry⟩ := List.mem_flatMap.mp h
  exact SourceFile.entries_plain (hplain f hf) entry hentry

/-- Clashes are seen in the text of names, too, if these are plain. -/
theorem clashFree_iff_not_clash (hplain : ∀ f ∈ files, f.source.decl.Plain) :
    ClashFree files ↔
      ¬ ∃ a b, [a, b].Sublist (files.flatMap (·.source.entries)) ∧ a.Clash b := by
  rw [clashFree_iff_entries, List.pairwise_iff_forall_sublist]
  constructor
  · intro h hclash
    obtain ⟨a, b, hab, hsame, hnot⟩ := hclash
    have ha := entries_plain hplain (hab.mem List.mem_cons_self)
    have hb := entries_plain hplain (hab.mem (List.mem_cons_of_mem a List.mem_cons_self))
    exact hnot (h hab ((QualifiedName.dotted_inj ha hb).mp hsame))
  · intro h a b hab hsame
    exact not_not.mp fun hnot => h ⟨a, b, hab, congrArg QualifiedName.dotted hsame, hnot⟩

/-! ### Reports -/

theorem isDuplicate_of_clash {fileName : Nat → String} {first entry : NameEntry} {flaw : Flaw}
    (h : Registry.clash fileName first entry = some flaw) : flaw.isDuplicate = true := by
  unfold Registry.clash at h
  grind [Flaw.isDuplicate]

theorem isDuplicate_of_mem_enter {fileName : Nat → String} {r : Registry} {names : List NameEntry}
    {x : Nat × Flaw} (h : x ∈ (Registry.enter fileName r names).2) : x.2.isDuplicate = true := by
  induction names generalizing r with
  | nil => cases h
  | cons next rest ih =>
    rw [Registry.enter] at h
    split at h
    · exact ih h
    · dsimp only at h
      split at h
      · rcases List.mem_cons.mp h with rfl | h
        · exact isDuplicate_of_clash ‹_›
        · exact ih h
      · exact ih h

/-- The flaws of a report are among those found. -/
theorem mem_of_report? {found : Findings} {e : SchemaError} (h : report? files found = some e)
    {flaw : Flaw} (hflaw : flaw ∈ e.all) : ∃ file, (file, flaw) ∈ found := by
  unfold report? at h
  split at h
  · cases h
  · split at h
    · cases h
    · rw [Report.all_of_ofSorted? h, List.mem_mergeSort] at hflaw
      obtain ⟨x, hx, rfl⟩ := List.mem_map.mp hflaw
      exact ⟨x.1, (List.mem_filter.mp hx).1⟩

/-- If names clash, all that is reported are clashes. -/
theorem error_of_not_clashFree (h : ¬ ClashFree files) :
    ∃ e, link files = .error e ∧ ∀ flaw ∈ e.all, flaw.isDuplicate = true := by
  cases hreport : report? files
      (Registry.enter (fileName files) [] (Outline.ofFiles files).1.names).2 with
  | none => exact absurd (clashFree_of_report? hreport) h
  | some e =>
    refine ⟨e, ?_, fun flaw hflaw => ?_⟩
    · simp only [link, hreport]
    · obtain ⟨file, hfound⟩ := mem_of_report? hreport hflaw
      exact isDuplicate_of_mem_enter hfound

/-! ### The flaws of definitions are others -/

theorem isDuplicate_of_mem_valueFlaws {e : Decl.Enum} {reserved : ReservedSet}
    {before : List Decl.EnumValue} {v : Decl.EnumValue} {flaw : Flaw}
    (h : flaw ∈ EnumRules.valueFlaws e reserved before v) : flaw.isDuplicate = false := by
  unfold EnumRules.valueFlaws at h
  dsimp only at h
  cases hnumber : v.number.toInt32? with
  | none =>
    simp only [hnumber, List.mem_append] at h
    split at h <;> grind [Flaw.isDuplicate]
  | some number =>
    simp only [hnumber, List.mem_append] at h
    rcases h with ((h | h) | h) | h <;> split at h <;> grind [Flaw.isDuplicate]

theorem isDuplicate_of_mem_enumFlaws {edition : Decl.Edition} {e : Decl.Enum} {flaw : Flaw}
    (h : flaw ∈ EnumRules.flaws edition e) : flaw.isDuplicate = false := by
  have hvalues : ∀ {reserved before values}, flaw ∈ EnumRules.valuesFlaws e reserved before values →
      flaw.isDuplicate = false := by
    intro reserved before values h
    induction values generalizing before with
    | nil => cases h
    | cons v rest ih =>
      rcases List.mem_append.mp h with h | h
      · exact isDuplicate_of_mem_valueFlaws h
      · exact ih h
  unfold EnumRules.flaws EnumRules.firstValueFlaws at h
  grind [Flaw.isDuplicate]

theorem isDuplicate_of_mem_fieldFlaws {message : String} {m : Decl.Message} {flaw : Flaw}
    (h : flaw ∈ FieldRules.flaws message m) : flaw.isDuplicate = false := by
  have hfields : ∀ {reserved before fields},
      flaw ∈ FieldRules.fieldsFlaws message reserved before fields → flaw.isDuplicate = false := by
    intro reserved before fields h
    induction fields generalizing before with
    | nil => cases h
    | cons f rest ih =>
      simp only [FieldRules.fieldsFlaws, List.mem_append] at h
      rcases h with ((h | h) | h) | h
      · unfold FieldRules.nameFlaws at h
        grind [Flaw.isDuplicate]
      · unfold FieldRules.reservedNameFlaws at h
        grind [Flaw.isDuplicate]
      · unfold FieldRules.numberFlaws at h
        grind [Flaw.isDuplicate]
      · exact ih h
  exact hfields h

theorem isDuplicate_of_mem_field {ctx : Context} {scope : QualifiedName} {f : Decl.Field}
    {flaw : Flaw} (h : flaw ∈ (field ctx scope f).flaws) : flaw.isDuplicate = false := by
  have htype : flaw ∈ (fieldType ctx scope f).flaws → flaw.isDuplicate = false := by
    unfold fieldType namedType
    grind [Flaw.isDuplicate]
  unfold field packed default at h
  grind [Flaw.isDuplicate]

theorem isDuplicate_of_mem_findings {x : Nat × Flaw}
    (h : x ∈ findings (enumsOf files) ++ findings (messagesOf files)) :
    x.2.isDuplicate = false := by
  rcases List.mem_append.mp h with h | h
  · obtain ⟨c, hc, _, hflaw⟩ := mem_findings.mp h
    obtain ⟨e, _, rfl⟩ := List.mem_map.mp hc
    exact isDuplicate_of_mem_enumFlaws hflaw
  · obtain ⟨c, hc, _, hflaw⟩ := mem_findings.mp h
    obtain ⟨m, _, rfl⟩ := List.mem_map.mp hc
    rcases List.mem_append.mp hflaw with hflaw | hflaw
    · exact isDuplicate_of_mem_fieldFlaws hflaw
    · obtain ⟨checked, hchecked, hflaw⟩ := List.mem_flatMap.mp hflaw
      obtain ⟨f, _, rfl⟩ := List.mem_map.mp hchecked
      exact isDuplicate_of_mem_field hflaw

/-- A clash is reported if and only if there is one. -/
theorem exists_duplicate_iff :
    (∃ e, link files = .error e ∧ ∃ flaw ∈ e.all, flaw.isDuplicate = true) ↔
      ¬ ClashFree files := by
  constructor
  · intro h hfree
    obtain ⟨e, he, flaw, hflaw, hduplicate⟩ := h
    obtain ⟨file, hfound⟩ := mem_of_report? (report?_of_link_error hfree he) hflaw
    have hother := isDuplicate_of_mem_findings hfound
    rw [hduplicate] at hother
    cases hother
  · intro h
    obtain ⟨e, he, hall⟩ := error_of_not_clashFree h
    exact ⟨e, he, e.first, List.mem_cons_self, hall e.first List.mem_cons_self⟩

/-! ### Looking definitions up -/

theorem plain_of_declares (hplain : ∀ f ∈ files, f.source.decl.Plain) {name : QualifiedName}
    {d : Definition} {file : Nat} (h : Declares files name d file) : name.Plain := by
  obtain ⟨entry, hentry, rfl, _⟩ := h
  have hmem : entry.entry ∈ files.flatMap (·.source.entries) := by
    rw [← Outline.entries_ofFilesFrom 0 0 0 files]
    exact List.mem_map_of_mem hentry
  exact entries_plain hplain hmem

theorem declares_of_link (h : link files = .ok s) {kind : Kind} {i : Nat} {d : Place}
    (hd : (s.listing kind).places[i]? = some d) :
    Declares files d.fullName (kind.definition i) d.file := by
  rw [places_of_link h] at hd
  exact (declares_iff kind).mpr ⟨d, hd, rfl, rfl⟩

/-- What a text stands for, if it is that of a full name. -/
theorem definition_eq_of_dotted (hplain : ∀ f ∈ files, f.source.decl.Plain)
    (hfree : ClashFree files) {a b : QualifiedName} {d d' : Definition} {file file' : Nat}
    (ha : Declares files a d file) (hb : Declares files b d' file') (h : a.dotted = b.dotted) :
    d = d' := by
  rw [(QualifiedName.dotted_inj (plain_of_declares hplain ha) (plain_of_declares hplain hb)).mp h]
    at ha
  exact declares_unique hfree ha hb

/-- Keys differ if equal ones are in the same place. -/
theorem nodup_map_of_place {α β : Type} {l : List α} {key : α → β}
    (h : ∀ {i j : Nat} {a b : α}, l[i]? = some a → l[j]? = some b → key a = key b → i = j) :
    (l.map key).Nodup := by
  refine List.pairwise_map.mpr (List.pairwise_iff_getElem.mpr fun i j hi hj hlt hsame => ?_)
  exact Nat.ne_of_lt hlt (h (List.getElem?_eq_getElem hi) (List.getElem?_eq_getElem hj) hsame)

/-- What has a key of its own is found by it. -/
theorem find?_of_nodup {α : Type} {l : List α} {key : α → String} (h : (l.map key).Nodup) {a : α}
    (ha : a ∈ l) : l.find? (key · == key a) = some a := by
  cases hfind : l.find? (key · == key a) with
  | none => exact absurd (beq_self_eq_true (key a)) (List.find?_eq_none.mp hfind a ha)
  | some b =>
    have hkey : key b = key a := by simpa using List.find?_some hfind
    exact congrArg some (List.inj_on_of_nodup_map h (List.mem_of_find?_eq_some hfind) ha hkey)

theorem find?_of_disjoint {α : Type} {l : List α} {key : α → String} {name : String}
    (h : name ∉ l.map key) : l.find? (key · == name) = none := by
  refine List.find?_eq_none.mpr fun b hb hname => h ?_
  exact List.mem_map.mpr ⟨b, hb, by simpa using hname⟩

/-- The full names of definitions differ. -/
theorem names_nodup (hplain : ∀ f ∈ files, f.source.decl.Plain) (h : link files = .ok s) :
    (s.places.map (·.fullName.dotted)).Nodup := by
  have hfree := clashFree_of_link h
  have hkind (kind : Kind) : ((s.listing kind).places.map (·.fullName.dotted)).Nodup :=
    nodup_map_of_place fun ha hb hname => Kind.definition_inj
      (definition_eq_of_dotted hplain hfree (declares_of_link h ha) (declares_of_link h hb) hname)
  rw [Schema.places, List.map_append]
  refine List.nodup_append.mpr ⟨hkind .message, hkind .enum, ?_⟩
  intro name hname other hother hsame
  obtain ⟨m, hm, rfl⟩ := List.mem_map.mp hname
  obtain ⟨x, hx, rfl⟩ := List.mem_map.mp hother
  obtain ⟨i, hi⟩ := List.mem_iff_getElem?.mp hm
  obtain ⟨j, hj⟩ := List.mem_iff_getElem?.mp hx
  have hmessage := declares_of_link h (show (s.listing .message).places[i]? = some m from hi)
  have henum := declares_of_link h (show (s.listing .enum).places[j]? = some x from hj)
  cases definition_eq_of_dotted hplain hfree hmessage henum hsame

theorem plain_of_parsed (hparsed : ∀ f ∈ files,
    SourceFile.ofText f.source.name f.source.path f.source.text = .ok f.source) :
    ∀ f ∈ files, f.source.decl.Plain := by
  intro f hf
  have hparse := hparsed f hf
  unfold SourceFile.ofText at hparse
  split at hparse
  · rename_i decl hdecl
    rw [← Except.ok.inj hparse]
    exact Grammar.plain_of_parse hdecl
  · cases hparse

/-- **Duplicate names are found exactly.** Linking parsed files reports that a name is declared
twice if and only if two of their entries, in whatever order, have the same full name and are not
both packages. And in a linked schema no two definitions have the same full name, which leads to
its definition, as a message or as an enum. -/
theorem duplicates_exact (hparsed : ∀ f ∈ files,
    SourceFile.ofText f.source.name f.source.path f.source.text = .ok f.source) :
    ((∃ e, link files = .error e ∧ ∃ flaw ∈ e.all, flaw.isDuplicate = true) ↔
      ∃ a b, [a, b].Sublist (files.flatMap (·.source.entries)) ∧ a.Clash b) ∧
    ∀ s, link files = .ok s →
      (s.messages.map (·.fullName.dotted) ++ s.enums.map (·.fullName.dotted)).Nodup ∧
      (∀ m ∈ s.messages, s.message? m.fullName.dotted = some m ∧
        s.enum? m.fullName.dotted = none) ∧
      ∀ x ∈ s.enums, s.enum? x.fullName.dotted = some x ∧
        s.message? x.fullName.dotted = none := by
  have hplain := plain_of_parsed hparsed
  refine ⟨?_, fun s h => ?_⟩
  · rw [exists_duplicate_iff, clashFree_iff_not_clash hplain, not_not]
  · have hnodup := names_nodup hplain h
    rw [Schema.places, Schema.messageListing, Schema.enumListing, List.map_append, List.map_map,
      List.map_map] at hnodup
    obtain ⟨hmessages, henums, hdisjoint⟩ := List.nodup_append.mp hnodup
    refine ⟨hnodup, fun m hm => ⟨find?_of_nodup hmessages hm, find?_of_disjoint fun hx => ?_⟩,
      fun x hx => ⟨find?_of_nodup henums hx, find?_of_disjoint fun hm => ?_⟩⟩
    · exact hdisjoint _ (List.mem_map_of_mem hm) _ hx rfl
    · exact hdisjoint _ hm _ (List.mem_map_of_mem hx) rfl

end Linking

/-! ### A value with the name of a message -/

/-- A text without faults is parsed. -/
theorem SourceFile.ofText_eq (name : String) (path : Option String) {text : String}
    (h : (Grammar.read text).2 = []) :
    ofText name path text =
      .ok ⟨name, path, text, (Grammar.read text).1.getD (.empty .proto2)⟩ := by
  unfold ofText Grammar.parse
  cases hread : Grammar.read text with
  | mk result faults =>
    rw [hread] at h
    cases h
    have hnone : SourceError.ofFaults? name text [] = none :=
      Report.ofSorted?_mergeSort_eq_none_iff.mpr rfl
    simp only [hnone]

theorem SourceFile.forall_mem_ofText {name : String} {path : Option String} {text : String}
    {root : Bool} (h : (Grammar.read text).2 = []) :
    ∀ f ∈ [(⟨⟨name, path, text, (Grammar.read text).1.getD (.empty .proto2)⟩, root⟩ : LoadedFile)],
      ofText f.source.name f.source.path f.source.text = .ok f.source := by
  intro f hf
  rw [List.mem_singleton.mp hf]
  exact ofText_eq name path h

namespace Power

def text : String :=
  "package plug; message Off \x7b\x7d enum Power \x7b On=1; Off=0; \x7d"

def files : List LoadedFile :=
  [⟨⟨"power.proto", none, text, (Grammar.read text).1.getD (.empty .proto2)⟩, true⟩]

theorem files_parsed : ∀ f ∈ files,
    SourceFile.ofText f.source.name f.source.path f.source.text = .ok f.source :=
  SourceFile.forall_mem_ofText (by decide +kernel)

end Power

namespace Linking

/-- An enum value clashes with a message beside its enum. Where nothing clashes, definitions are
found by their names. -/
theorem duplicates_exact_power :
    (∃ e, link Power.files = .error e ∧ ∃ flaw ∈ e.all, flaw.isDuplicate = true) ∧
      ∀ x ∈ Gauge.schema.enums, Gauge.schema.enum? x.fullName.dotted = some x := by
  constructor
  · refine (duplicates_exact Power.files_parsed).1.mpr
      ⟨⟨["plug", "Off"], false⟩, ⟨["plug", "Off"], false⟩, ?_, rfl, by decide⟩
    decide +kernel
  · intro x hx
    have hfound := (duplicates_exact Gauge.files_parsed).2 Gauge.schema Gauge.link_files
    exact (hfound.2.2 x hx).1

end Linking

end Protobuf

import Protobuf.Proofs.Schema.Boxing
import Protobuf.Proofs.Schema.Clashes

/-! Fields declared in another order.

The fields of a message may be declared in any order: which order it is changes neither what names
stand for nor whether there are flaws, since the rules for fields know of none. So declarations that
differ in the order of fields are linked to schemas that differ in it, and in nothing else
(`link_rearranged`). In particular the same fields are boxed, although messages are searched in the
order of the fields that hold them. -/
namespace Protobuf

/-! ### Declarations and schemas -/

/-- Declarations of one message that differ in the order of fields, its own or those of messages
nested in it. -/
inductive Decl.Message.Rearranged : Decl.Message → Decl.Message → Prop where
  | mk {name : Decl.Ident} {fields fields' : List Decl.Field}
      {messages messages' : List Decl.Message} {enums : List Decl.Enum}
      {reserved : List Decl.Reserved} {settings : List Decl.Setting} {span : Span} :
      fields'.Perm fields → List.Forall₂ Rearranged messages messages' →
      Rearranged ⟨name, fields, messages, enums, reserved, settings, span⟩
        ⟨name, fields', messages', enums, reserved, settings, span⟩

/-- Files that differ in the order of the fields of their messages. Their texts are not compared,
and every declaration keeps the place that it records. -/
structure LoadedFile.Rearranged (f f' : LoadedFile) : Prop where
  name : f'.source.name = f.source.name
  isRoot : f'.isRoot = f.isRoot
  edition : f'.source.decl.edition = f.source.decl.edition
  package : f'.source.decl.package = f.source.decl.package
  imports : f'.source.decl.imports = f.source.decl.imports
  messages : List.Forall₂ Decl.Message.Rearranged f.source.decl.messages f'.source.decl.messages
  enums : f'.source.decl.enums = f.source.decl.enums

/-- Messages that differ in the order of their fields only. -/
structure Message.Rearranged (m m' : Message) : Prop where
  fields : m'.fields.Perm m.fields
  others : { m' with fields := m.fields } = m

/-- Schemas that differ in the order of the fields of their messages only. -/
structure Schema.Rearranged (s s' : Schema) : Prop where
  messages : List.Forall₂ Message.Rearranged s.messages s'.messages
  others : { s' with messages := s.messages } = s

/-! ### Outlines -/

/-- The same of messages that are not linked yet. -/
structure MessageOutline.Rearranged (m m' : MessageOutline) : Prop where
  decl : m.decl.Rearranged m'.decl
  others : { m' with decl := m.decl } = m

theorem MessageOutline.Rearranged.file {m m' : MessageOutline} (h : m.Rearranged m') :
    m'.file = m.file :=
  show ({ m' with decl := m.decl } : MessageOutline).file = m.file by rw [h.others]

namespace Outline

/-- Outlines that differ in the order of fields only. -/
structure Rearranged (o o' : Outline) : Prop where
  names : o'.names = o.names
  messages : List.Forall₂ MessageOutline.Rearranged o.messages o'.messages
  enums : o'.enums = o.enums

theorem Rearranged.append {a a' b b' : Outline} (ha : a.Rearranged a') (hb : b.Rearranged b') :
    (a ++ b).Rearranged (a' ++ b') where
  names := congrArg₂ (· ++ ·) ha.names hb.names
  messages := List.rel_append ha.messages hb.messages
  enums := congrArg₂ (· ++ ·) ha.enums hb.enums

/-- Where there are no messages, nothing differs. -/
theorem Rearranged.refl {o : Outline} (h : o.messages = []) : o.Rearranged o :=
  ⟨rfl, by rw [h]; exact .nil, rfl⟩

mutual

theorem counts_rearranged : (m m' : Decl.Message) → m.Rearranged m' →
    messageCount m' = messageCount m ∧ enumCount m' = enumCount m
  | ⟨_, _, messages, enums, _, _, _⟩, ⟨_, _, messages', _, _, _, _⟩, .mk _ h => by
    obtain ⟨hmessages, henums⟩ := countsAll_rearranged messages messages' h
    rw [messageCount, messageCount, enumCount, enumCount, hmessages, henums]
    exact ⟨rfl, rfl⟩

theorem countsAll_rearranged : (messages messages' : List Decl.Message) →
    List.Forall₂ Decl.Message.Rearranged messages messages' →
      messagesCount messages' = messagesCount messages ∧ enumsCount messages' = enumsCount messages
  | [], [], _ => ⟨rfl, rfl⟩
  | m :: rest, m' :: rest', .cons hm hrest => by
    obtain ⟨hmessage, henum⟩ := counts_rearranged m m' hm
    obtain ⟨hmessages, henums⟩ := countsAll_rearranged rest rest' hrest
    rw [messagesCount, messagesCount, enumsCount, enumsCount, hmessage, henum, hmessages, henums]
    exact ⟨rfl, rfl⟩

end

theorem messageIndices_rearranged {messages messages' : List Decl.Message}
    (h : List.Forall₂ Decl.Message.Rearranged messages messages') (next : Nat) :
    messageIndices next messages' = messageIndices next messages := by
  induction h generalizing next with
  | nil => rfl
  | cons hm _ ih => rw [messageIndices, messageIndices, (counts_rearranged _ _ hm).1, ih]

mutual

theorem ofMessage_rearranged (site : Site) (i e : Nat) : (m m' : Decl.Message) →
    m.Rearranged m' → (ofMessage site i e m).Rearranged (ofMessage site i e m')
  | ⟨name, _, messages, enums, _, _, _⟩, ⟨_, _, messages', _, _, _, _⟩, h@(.mk _ hmessages) => by
    rw [ofMessage, ofMessage, (countsAll_rearranged messages messages' hmessages).2]
    refine Rearranged.append (Rearranged.append ?_ ?_) (.refl (messages_ofEnums ..))
    · refine ⟨rfl, .cons ⟨h, ?_⟩ .nil, rfl⟩
      rw [messageIndices_rearranged hmessages]
    · exact ofMessages_rearranged _ (i + 1) e messages messages' hmessages

theorem ofMessages_rearranged (site : Site) (i e : Nat) :
    (messages messages' : List Decl.Message) →
      List.Forall₂ Decl.Message.Rearranged messages messages' →
        (ofMessages site i e messages).Rearranged (ofMessages site i e messages')
  | [], [], _ => .refl rfl
  | m :: rest, m' :: rest', .cons hm hrest => by
    obtain ⟨hmessage, henum⟩ := counts_rearranged m m' hm
    rw [ofMessages, ofMessages, hmessage, henum]
    exact (ofMessage_rearranged site i e m m' hm).append
      (ofMessages_rearranged site _ _ rest rest' hrest)

end

theorem ofFile_rearranged {f f' : LoadedFile} (h : f.Rearranged f') (file i e : Nat) :
    (ofFile file i e f.source).Rearranged (ofFile file i e f'.source) := by
  unfold ofFile SourceFile.package
  rw [h.package, h.enums, (countsAll_rearranged _ _ h.messages).2]
  refine Rearranged.append (Rearranged.append (.refl rfl) ?_) (.refl (messages_ofEnums ..))
  exact ofMessages_rearranged _ i e _ _ h.messages

theorem schemaFile_rearranged {f f' : LoadedFile} (h : f.Rearranged f') (i e : Nat) :
    schemaFile i e f' = schemaFile i e f := by
  unfold schemaFile SourceFile.package
  rw [h.name, h.package, h.edition, h.isRoot, h.enums, messageIndices_rearranged h.messages,
    (countsAll_rearranged _ _ h.messages).2]

theorem ofFilesFrom_rearranged {files files' : List LoadedFile}
    (h : List.Forall₂ LoadedFile.Rearranged files files') (file i e : Nat) :
    (ofFilesFrom file i e files).1.Rearranged (ofFilesFrom file i e files').1 ∧
      (ofFilesFrom file i e files').2 = (ofFilesFrom file i e files).2 := by
  induction h generalizing file i e with
  | nil => exact ⟨.refl rfl, rfl⟩
  | @cons f f' _ _ hf _ ih =>
    have hhere := ofFile_rearranged hf file i e
    obtain ⟨hothers, hfiles⟩ := ih (file + 1) (i + (ofFile file i e f.source).messages.length)
      (e + (ofFile file i e f.source).enums.length)
    rw [ofFilesFrom, ofFilesFrom, ← hhere.messages.length_eq, hhere.enums]
    exact ⟨hhere.append hothers, congrArg₂ _ (schemaFile_rearranged hf i e) hfiles⟩

theorem ofFiles_rearranged {files files' : List LoadedFile}
    (h : List.Forall₂ LoadedFile.Rearranged files files') :
    (ofFiles files).1.Rearranged (ofFiles files').1 ∧ (ofFiles files').2 = (ofFiles files).2 :=
  ofFilesFrom_rearranged h 0 0 0

end Outline

/-! ### What files are linked against -/

section
variable {files files' : List LoadedFile} (h : List.Forall₂ LoadedFile.Rearranged files files')
include h

theorem getElem?_rearranged {α : Type} {g : LoadedFile → α}
    (hg : ∀ {f f' : LoadedFile}, f.Rearranged f' → g f = g f') (index : Nat) :
    files'[index]?.map g = files[index]?.map g := by
  have hmap := map_eq_of_forall₂ h hg
  rw [← List.getElem?_map, ← List.getElem?_map, hmap]

namespace Visibility

theorem indexOf?_rearranged (name : String) : indexOf? files' name = indexOf? files name := by
  have hnames : files.map (·.source.name) = files'.map (·.source.name) :=
    map_eq_of_forall₂ h fun hf => hf.name.symm
  rw [indexOf?, indexOf?, hnames]

theorem reached_rearranged (passedOn : List (List Nat)) (imports : List String) :
    reached files' passedOn imports = reached files passedOn imports := by
  simp only [reached, indexOf?_rearranged h]

theorem passedOnFrom_rearranged {l l' : List LoadedFile}
    (hl : List.Forall₂ LoadedFile.Rearranged l l') (known : List (List Nat)) :
    passedOnFrom files' known l' = passedOnFrom files known l := by
  induction hl generalizing known with
  | nil => rfl
  | cons hf _ ih =>
    rw [passedOnFrom, passedOnFrom, reached_rearranged h, ih, passedOnImports, hf.imports]
    rfl

theorem table_rearranged : table files' = table files := by
  apply List.ext_getElem?
  intro index
  have himports := getElem?_rearranged h (g := fun f => f.source.decl.imports)
    (fun hf => hf.imports.symm) index
  have hrow := congrArg (Option.map fun imports : List Decl.Import =>
    index :: reached files (passedOn files) (imports.map (·.value))) himports
  rw [Option.map_map, Option.map_map] at hrow
  unfold table passedOn
  rw [List.getElem?_mapIdx, List.getElem?_mapIdx, passedOnFrom_rearranged h h]
  simp only [reached_rearranged h]
  exact hrow

end Visibility

namespace Linking

theorem fileName_rearranged : fileName files' = fileName files := by
  funext index
  have heq (l : List LoadedFile) :
      fileName l index = (l[index]?.map (·.source.name)).getD "" := by
    unfold fileName
    cases l[index]? <;> rfl
  rw [heq, heq, getElem?_rearranged h fun hf => hf.name.symm]

theorem edition_rearranged : edition files' = edition files := by
  funext index
  have heq (l : List LoadedFile) :
      edition l index = (l[index]?.map (·.source.decl.edition)).getD .proto2 := by
    unfold edition
    cases l[index]? <;> rfl
  rw [heq, heq, getElem?_rearranged h fun hf => hf.edition.symm]

theorem enumsOf_rearranged : enumsOf files' = enumsOf files := by
  rw [enumsOf, enumsOf, checkEnums, checkEnums, (Outline.ofFiles_rearranged h).1.enums,
    edition_rearranged h]

theorem contextOf_rearranged (file : Nat) : contextOf files' file = contextOf files file := by
  rw [contextOf, contextOf, registryOf, registryOf, (Outline.ofFiles_rearranged h).1.names,
    fileName_rearranged h, enumsOf_rearranged h, Visibility.table_rearranged h]

end Linking

end

/-! ### Messages -/

theorem FieldRules.Sound.rearranged {m m' : Decl.Message} (h : m.Rearranged m') (hm : Sound m) :
    Sound m' := by
  obtain ⟨hperm, -⟩ := h
  exact ⟨(hperm.map _).nodup_iff.mpr hm.names, (hperm.map _).nodup_iff.mpr hm.idents,
    fun f hf => hm.usable f (hperm.mem_iff.mp hf), (hperm.map _).nodup_iff.mpr hm.numbers,
    fun f hf => hm.unreservedName f (hperm.mem_iff.mp hf),
    fun f hf => hm.unreservedNumber f (hperm.mem_iff.mp hf)⟩

namespace Linking

/-- A message is linked alike, with its fields in the other order. -/
theorem message_rearranged {ctx : Context} {m m' : MessageOutline} (h : m.Rearranged m') :
    ((message ctx m).flaws = [] → (message ctx m').flaws = []) ∧
      (message ctx m).value.Rearranged (message ctx m').value := by
  obtain ⟨decl, _, _, _, _, _⟩ := m
  obtain ⟨decl', fullName, _, _, _, _⟩ := m'
  obtain ⟨hdecl, hothers⟩ := h
  cases hothers
  obtain @⟨_, fields, fields', _, _, _, _, _, _, hperm, hmessages⟩ := hdecl
  have hlinked := hperm.map (field ctx fullName)
  refine ⟨fun hflaws => ?_, hlinked.filterMap _, rfl⟩
  obtain ⟨hrules, hfields⟩ := List.append_eq_nil_iff.mp hflaws
  refine List.append_eq_nil_iff.mpr ⟨?_, ?_⟩
  · exact FieldRules.flaws_eq_nil_iff.mpr
      ((FieldRules.flaws_eq_nil_iff.mp hrules).rearranged (.mk hperm hmessages))
  · rw [List.flatMap_eq_nil_iff] at hfields ⊢
    exact fun c hc => hfields c (hlinked.mem_iff.mp hc)

/-! ### Boxing -/

section
variable {messages messages' : List Message}
  (h : List.Forall₂ Message.Rearranged messages messages')
include h

theorem containment_edge_rearranged :
    (containment messages').Edge = (containment messages).Edge := by
  funext a b
  simp only [eq_iff_iff, containment_edge]
  constructor
  · rintro ⟨m', hm', f, hf, hsingular⟩
    obtain ⟨m, hm, hrearranged⟩ := exists_of_forall₂_right h hm'
    exact ⟨m, hm, f, hrearranged.fields.mem_iff.mp hf, hsingular⟩
  · rintro ⟨m, hm, f, hf, hsingular⟩
    obtain ⟨m', hm', hrearranged⟩ := exists_of_forall₂_left h hm
    exact ⟨m', hm', f, hrearranged.fields.mem_iff.mpr hf, hsingular⟩

/-- Components may be found in another order, but they hold the same messages. -/
theorem boxField_rearranged (hrange : (containment messages).InRange)
    (hrange' : (containment messages').InRange) {owner : Nat} (howner : owner < messages.length)
    (f : Field) :
    boxField (containment messages').componentNumbers owner f =
      boxField (containment messages).componentNumbers owner f := by
  have hlength : (containment messages).length = messages.length := List.length_map ..
  have hlength' : (containment messages').length = messages.length :=
    (List.length_map ..).trans h.length_eq.symm
  have hnumbers (target : Nat) :
      ((containment messages').componentNumbers[owner]? ==
          (containment messages').componentNumbers[target]?) =
        ((containment messages).componentNumbers[owner]? ==
          (containment messages).componentNumbers[target]?) := by
    rw [Bool.eq_iff_iff, beq_iff_eq, beq_iff_eq]
    by_cases htarget : target < messages.length
    · rw [Graph.componentNumbers_eq_iff hrange (hlength ▸ howner) (hlength ▸ htarget),
        Graph.componentNumbers_eq_iff hrange' (hlength' ▸ howner) (hlength' ▸ htarget),
        Graph.Reaches, Graph.Reaches, containment_edge_rearranged h]
    · -- What is no message has no number.
      have hnone {g : Graph} (hg : g.length = messages.length) :
          g.componentNumbers[owner]? ≠ g.componentNumbers[target]? := by
        have htarget' : g.componentNumbers[target]? = none :=
          List.getElem?_eq_none (by rw [g.length_componentNumbers]; omega)
        rw [Graph.getElem?_componentNumbers (hg ▸ howner), htarget']
        nofun
      exact iff_of_false (hnone hlength') (hnone hlength)
  simp only [boxField, hnumbers]

theorem box_rearranged (hrange : (containment messages).InRange)
    (hrange' : (containment messages').InRange) :
    List.Forall₂ Message.Rearranged (box messages) (box messages') := by
  rw [List.forall₂_iff_get]
  refine ⟨by rw [box, box, List.length_mapIdx, List.length_mapIdx, h.length_eq], ?_⟩
  intro i hi hi'
  rw [box, List.length_mapIdx] at hi hi'
  have hm := h.get hi hi'
  simp only [box, List.get_eq_getElem, List.getElem_mapIdx] at hm ⊢
  refine ⟨?_, ?_⟩
  · rw [funext (boxField_rearranged h hrange hrange' hi)]
    exact hm.fields.map _
  · conv => rhs; rw [← hm.others]

end

/-! ### Schemas -/

/-- **Declarations that differ in the order of fields only are linked to schemas that do.** -/
theorem link_rearranged {files files' : List LoadedFile}
    (h : List.Forall₂ LoadedFile.Rearranged files files') {s : Schema}
    (hlink : link files = .ok s) : ∃ s', link files' = .ok s' ∧ s.Rearranged s' := by
  obtain ⟨houtline, hfiles⟩ := Outline.ofFiles_rearranged h
  have hlinks : ∃ s', link files' = .ok s' := by
    obtain ⟨hfree, henums, hmessages⟩ := exists_link_iff.mp ⟨s, hlink⟩
    refine exists_link_iff.mpr ⟨?_, ?_, ?_⟩
    · rw [clashFree_iff] at hfree ⊢
      rwa [houtline.names]
    · rwa [houtline.enums, edition_rearranged h]
    · intro m' hm'
      obtain ⟨m, hm, hrearranged⟩ := exists_of_forall₂_mem houtline.messages.flip hm'
      rw [contextOf_rearranged h, hrearranged.file]
      exact (message_rearranged hrearranged).1 (hmessages m hm)
  obtain ⟨s', hlink'⟩ := hlinks
  refine ⟨s', hlink', ?_⟩
  obtain ⟨rfl, -⟩ := eq_of_link hlink
  obtain ⟨rfl, -⟩ := eq_of_link hlink'
  have hmessages : List.Forall₂ Message.Rearranged ((messagesOf files).map (·.2.value))
      ((messagesOf files').map (·.2.value)) := by
    rw [messagesOf, messagesOf, checkMessages, checkMessages, List.map_map, List.map_map,
      List.forall₂_map_left_iff, List.forall₂_map_right_iff]
    refine houtline.messages.imp fun m m' hm => ?_
    show (message (contextOf files m.file) m).value.Rearranged
      (message (contextOf files' m'.file) m').value
    rw [contextOf_rearranged h, hm.file]
    exact (message_rearranged hm).2
  refine ⟨box_rearranged hmessages (containment_inRange files) (containment_inRange files'), ?_⟩
  rw [hfiles, enumsOf_rearranged h]

end Linking

end Protobuf

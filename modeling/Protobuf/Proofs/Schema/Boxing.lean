import Protobuf.Proofs.Record.Merging
import Protobuf.Proofs.Schema.Components
import Protobuf.Proofs.Schema.WellFormed

/-! Boxing is exact.

A message that holds another one inline has at least its size, so that messages which hold each
other inline would have no size at all. A field is kept behind a pointer if it holds one message of
its owner's component. The graph that the components are found in has an edge for each field that
holds one message, and its edges lead to messages that exist: a type name stands for a message that
the outline has numbered (`containment_inRange`). So a field is boxed if and only if there is a way
back from what it holds to its owner, and what is left unboxed has no cycle. -/
namespace Protobuf

/-! ### Numbers of messages -/

namespace Outline

/-- Messages are numbered from `first` on, and names stand for no later ones. -/
def Numbered (first : Nat) (o : Outline) : Prop :=
  ∀ entry ∈ o.names, ∀ index, entry.definition = .message index →
    index < first + o.messages.length

theorem length_messages_append (a b : Outline) :
    (a ++ b).messages.length = a.messages.length + b.messages.length :=
  List.length_append

theorem Numbered.append {first : Nat} {a b : Outline} (ha : a.Numbered first)
    (hb : b.Numbered (first + a.messages.length)) : (a ++ b).Numbered first := by
  intro entry hentry index hindex
  rw [length_messages_append]
  rcases List.mem_append.mp hentry with hentry | hentry
  · have := ha entry hentry index hindex
    omega
  · have := hb entry hentry index hindex
    omega

theorem Numbered.empty {first : Nat} : Outline.empty.Numbered first := nofun

theorem ofEnums_numbered (first : Nat) (site : Site) (next : Nat) (enums : List Decl.Enum) :
    (ofEnums site next enums).Numbered first := by
  induction enums generalizing first next with
  | nil => exact .empty
  | cons e rest ih =>
    refine Numbered.append ?_ (ih _ (next + 1))
    intro entry hentry index hindex
    rcases List.mem_cons.mp hentry with rfl | hvalue
    · cases hindex
    · obtain ⟨v, _, rfl⟩ := List.mem_map.mp hvalue
      cases hindex

theorem messages_ofEnums (site : Site) (next : Nat) (enums : List Decl.Enum) :
    (ofEnums site next enums).messages = [] := by
  induction enums generalizing next with
  | nil => rfl
  | cons e rest ih => exact ih (next + 1)

mutual

theorem length_messages_ofMessage (site : Site) (i e : Nat) :
    ∀ m, (ofMessage site i e m).messages.length = messageCount m
  | ⟨name, _, messages, enums, _, _, _⟩ => by
    rw [ofMessage, length_messages_append, length_messages_append, messages_ofEnums,
      length_messages_ofMessages, messageCount]
    exact Nat.add_comm 1 (messagesCount messages)

theorem length_messages_ofMessages (site : Site) (i e : Nat) :
    ∀ messages, (ofMessages site i e messages).messages.length = messagesCount messages
  | [] => rfl
  | m :: rest => by
    rw [ofMessages, length_messages_append, length_messages_ofMessage, length_messages_ofMessages,
      messagesCount]

end

mutual

theorem ofMessage_numbered (site : Site) (i e : Nat) : ∀ m, (ofMessage site i e m).Numbered i
  | ⟨name, _, messages, enums, _, _, _⟩ => by
    rw [ofMessage]
    refine Numbered.append (Numbered.append ?_ ?_) (ofEnums_numbered _ _ _ enums)
    · intro entry hentry index hindex
      rw [List.mem_singleton.mp hentry] at hindex
      cases hindex
      exact Nat.lt_succ_self i
    · exact ofMessages_numbered _ (i + 1) e messages

theorem ofMessages_numbered (site : Site) (i e : Nat) :
    ∀ messages, (ofMessages site i e messages).Numbered i
  | [] => .empty
  | m :: rest => by
    rw [ofMessages]
    refine (ofMessage_numbered site i e m).append ?_
    rw [length_messages_ofMessage]
    exact ofMessages_numbered site _ _ rest

end

theorem ofFile_numbered (file i e : Nat) (f : SourceFile) : (ofFile file i e f).Numbered i := by
  refine Numbered.append (Numbered.append ?_ ?_) (ofEnums_numbered _ _ _ f.decl.enums)
  · intro entry hentry index hindex
    obtain ⟨names, hnames, hmem⟩ : ∃ names, f.decl.package.map (packageNames file) = some names ∧
        entry ∈ names := by
      cases hpackage : f.decl.package with
      | none => simp [hpackage] at hentry
      | some p => exact ⟨_, rfl, by simpa [hpackage] using hentry⟩
    obtain ⟨p, _, rfl⟩ := Option.map_eq_some_iff.mp hnames
    obtain ⟨n, _, rfl⟩ := List.mem_map.mp hmem
    cases hindex
  · exact ofMessages_numbered _ i e f.decl.messages

theorem ofFilesFrom_numbered (file i e : Nat) (files : List LoadedFile) :
    (ofFilesFrom file i e files).1.Numbered i := by
  induction files generalizing file i e with
  | nil => exact .empty
  | cons f rest ih => exact (ofFile_numbered file i e f.source).append (ih (file + 1) _ _)

end Outline

/-! ### What type names stand for -/

namespace Registry

theorem mem_of_enter {fileName : Nat → String} {r : Registry} {names : List NameEntry}
    {entry : NameEntry} (h : entry ∈ (enter fileName r names).1) : entry ∈ r ∨ entry ∈ names := by
  induction names generalizing r with
  | nil => exact .inl h
  | cons first rest ih =>
    rw [enter] at h
    split at h
    · rcases ih h with hr | hrest
      · rcases List.mem_append.mp hr with hr | hfirst
        · exact .inl hr
        · exact .inr (List.mem_cons.mpr (.inl (List.mem_singleton.mp hfirst)))
      · exact .inr (List.mem_cons_of_mem first hrest)
    · have hmem : entry ∈ (enter fileName r rest).1 := by
        dsimp only at h
        split at h <;> exact h
      exact (ih hmem).imp_right (List.mem_cons_of_mem first)

theorem mem_of_get? {r : Registry} {name : QualifiedName} {entry : NameEntry}
    (h : r.get? name = some entry) : entry ∈ r :=
  List.mem_of_find?_eq_some h

theorem mem_of_findIn {r : Registry} {first : String} {rest : List String}
    {scopes : List QualifiedName} {entry : NameEntry}
    (h : r.findIn first rest scopes = some entry) : entry ∈ r := by
  induction scopes with
  | nil => cases h
  | cons scope outer ih =>
    rw [findIn] at h
    split at h
    · exact ih h
    · split at h
      · rename_i hfound
        cases h
        exact mem_of_get? hfound
      · split at h
        · exact ih h
        · cases h

theorem mem_of_resolve {r : Registry} {scope : QualifiedName} {type : Decl.TypeRef}
    {entry : NameEntry} (h : r.resolve scope type = some entry) : entry ∈ r := by
  unfold resolve at h
  split at h
  · exact mem_of_get? h
  · exact mem_of_findIn h

end Registry

namespace Linking

theorem exists_entry_of_fieldType {ctx : Context} {scope : QualifiedName} {f : Decl.Field}
    {index : Nat} (h : (fieldType ctx scope f).value = some (.message index)) :
    ∃ entry ∈ ctx.registry, entry.definition = .message index := by
  unfold fieldType namedType at h
  split at h
  · cases h
  · dsimp only at h
    split at h
    · cases h
    · rename_i entry hresolve
      split at h
      · cases h
      · refine ⟨entry, Registry.mem_of_resolve hresolve, ?_⟩
        cases hdefinition : entry.definition <;> simp_all [typeOf]

/-- Linking a field does not box it, and if it holds messages, a name stands for them. -/
theorem field_unboxed {ctx : Context} {scope : QualifiedName} {f : Decl.Field} {g : Field}
    (h : (field ctx scope f).value = some g) :
    g.boxed = false ∧ ∀ index, g.type = .message index →
      ∃ entry ∈ ctx.registry, entry.definition = .message index := by
  unfold field at h
  dsimp only at h
  split at h
  · rename_i t number htype _
    cases h
    refine ⟨rfl, fun index hindex => ?_⟩
    have hvalue : (fieldType ctx scope f).value = some (.message index) :=
      htype.trans (congrArg some hindex)
    exact exists_entry_of_fieldType hvalue
  · cases h

theorem mem_fields_of_messagesOf {files : List LoadedFile} {m : Message} {g : Field}
    (hm : m ∈ (messagesOf files).map (·.2.value)) (hg : g ∈ m.fields) :
    g.boxed = false ∧ ∀ index, g.type = .message index → index < (messagesOf files).length := by
  obtain ⟨c, hc, rfl⟩ := List.mem_map.mp hm
  obtain ⟨o, _, rfl⟩ := List.mem_map.mp hc
  obtain ⟨linked, hlinked, hvalue⟩ := List.mem_filterMap.mp hg
  obtain ⟨f, _, rfl⟩ := List.mem_map.mp hlinked
  obtain ⟨hboxed, hentry⟩ := field_unboxed hvalue
  refine ⟨hboxed, fun index hindex => ?_⟩
  obtain ⟨entry, hregistry, hdefinition⟩ := hentry index hindex
  have hname : entry ∈ (Outline.ofFiles files).1.names :=
    (Registry.mem_of_enter hregistry).resolve_left List.not_mem_nil
  have hlt := Outline.ofFilesFrom_numbered 0 0 0 files entry hname index hdefinition
  rw [Nat.zero_add] at hlt
  rwa [messagesOf, checkMessages, List.length_map]

end Linking

/-! ### Which messages hold which -/

theorem Field.singularMessage?_eq_some_iff {f : Field} {target : Nat} :
    f.singularMessage? = some target ↔ f.type = .message target ∧ f.cardinality ≠ .repeated := by
  unfold singularMessage? isRepeated
  cases f.type <;> simp [and_comm]

/-- A message has a field that holds one message of the other type. -/
def Schema.Holds (s : Schema) (owner target : Nat) : Prop :=
  ∃ f ∈ s.fields owner, f.type = .message target ∧ f.cardinality ≠ .repeated

/-- A message has such a field that is not boxed. -/
def Schema.HoldsInline (s : Schema) (owner target : Nat) : Prop :=
  ∃ f ∈ s.fields owner, f.type = .message target ∧ f.cardinality ≠ .repeated ∧ f.boxed = false

namespace Linking
variable {messages : List Message}

theorem containment_edge {a b : Nat} :
    (containment messages).Edge a b ↔
      ∃ m, messages[a]? = some m ∧ ∃ f ∈ m.fields, f.singularMessage? = some b := by
  unfold Graph.Edge Graph.targets containment
  rw [List.getD_eq_getElem?_getD, List.getElem?_map]
  cases messages[a]? <;> simp

theorem boxField_singularMessage? (components : List Nat) (owner : Nat) (f : Field) :
    (boxField components owner f).singularMessage? = f.singularMessage? := by
  unfold boxField
  split <;> rfl

/-- Boxing keeps the edges of the graph. -/
theorem edge_eq_holds {s : Schema} (h : s.messages = box messages) :
    (containment messages).Edge = s.Holds := by
  funext a b
  simp only [eq_iff_iff, containment_edge, Schema.Holds, mem_fields_of_box h,
    ← Field.singularMessage?_eq_some_iff]
  constructor
  · rintro ⟨m, hm, f, hf, hsingular⟩
    exact ⟨_, ⟨m, hm, f, hf, rfl⟩, (boxField_singularMessage? _ a f).trans hsingular⟩
  · rintro ⟨_, ⟨m, hm, f, hf, rfl⟩, hsingular⟩
    exact ⟨m, hm, f, hf, (boxField_singularMessage? _ a f).symm.trans hsingular⟩

theorem containment_inRange (files : List LoadedFile) :
    (containment ((messagesOf files).map (·.2.value))).InRange := by
  intro a b hedge
  obtain ⟨m, hm, f, hf, hsingular⟩ := containment_edge.mp hedge
  obtain ⟨_, htarget⟩ := mem_fields_of_messagesOf (List.mem_of_getElem? hm) hf
  have hlt := htarget b (Field.singularMessage?_eq_some_iff.mp hsingular).1
  simpa [containment] using hlt

theorem boxField_boxed {components : List Nat} {owner : Nat} {f : Field}
    (h : f.boxed = false) :
    (boxField components owner f).boxed = true ↔
      ∃ target, f.singularMessage? = some target ∧ components[owner]? = components[target]? := by
  unfold boxField
  split <;> simp_all

/-- A field is boxed if there is a way back from what it holds to its owner. -/
theorem boxed_iff_reaches {files : List LoadedFile} {s : Schema} (h : link files = .ok s)
    {owner : Nat} {f : Field} (hf : f ∈ s.fields owner) :
    f.boxed = true ↔ ∃ target, (f.type = .message target ∧ f.cardinality ≠ .repeated) ∧
      Relation.ReflTransGen s.Holds target owner := by
  have hbox : s.messages = box ((messagesOf files).map (·.2.value)) := by
    rw [(eq_of_link h).1]
  have hrange := containment_inRange files
  obtain ⟨m, hm, g, hg, rfl⟩ := (mem_fields_of_box hbox).mp hf
  have howner : owner < (containment ((messagesOf files).map (·.2.value))).length := by
    obtain ⟨hlt, _⟩ := List.getElem?_eq_some_iff.mp hm
    simpa [containment] using hlt
  rw [boxField_boxed (mem_fields_of_messagesOf (List.mem_of_getElem? hm) hg).1]
  simp only [← Field.singularMessage?_eq_some_iff, boxField_singularMessage?, ← edge_eq_holds hbox]
  refine exists_congr fun target => and_congr_right fun hsingular => ?_
  have hedge := containment_edge.mpr ⟨m, hm, g, hg, hsingular⟩
  rw [Graph.componentNumbers_eq_iff hrange howner (hrange hedge)]
  exact and_iff_right (.single hedge)

/-- **Boxing is exact**: in a linked schema a field is boxed if and only if it holds one message
that reaches the owner of the field along such fields. So fields that are not boxed have no
cycle. -/
theorem boxing_exact {files : List LoadedFile} {s : Schema} (h : link files = .ok s) :
    (∀ owner, ∀ f ∈ s.fields owner, (f.boxed = true ↔
      ∃ target, (f.type = .message target ∧ f.cardinality ≠ .repeated) ∧
        Relation.ReflTransGen s.Holds target owner)) ∧
      ∀ type, ¬ Relation.TransGen s.HoldsInline type type := by
  refine ⟨fun owner f hf => boxed_iff_reaches h hf, fun type hcycle => ?_⟩
  obtain ⟨target, ⟨f, hf, htype, hsingular, hinline⟩, hback⟩ :=
    Relation.TransGen.head'_iff.mp hcycle
  have hinto : s.HoldsInline ≤ s.Holds :=
    fun _ _ ⟨f, hf, htype, hsingular, _⟩ => ⟨f, hf, htype, hsingular⟩
  have hholds := Relation.ReflTransGen.mono hinto target type hback
  have hboxed := (boxed_iff_reaches h hf).mpr ⟨target, ⟨htype, hsingular⟩, hholds⟩
  rw [hinline] at hboxed
  cases hboxed

/-- The next node of a node is boxed. Its children are not, although they are nodes, and neither is
its mark, from which there is no way back. -/
theorem boxing_exact_tree :
    link Tree.files = .ok Tree.schema ∧
      (Tree.schema.fields 1).map (fun f => (f.name, f.boxed)) =
        [("next", true), ("weight", false), ("children", false), ("ports", false),
          ("mark", false)] ∧
      Relation.ReflTransGen Tree.schema.Holds 1 1 ∧
      ¬ Relation.ReflTransGen Tree.schema.Holds 0 1 ∧
      ¬ Relation.TransGen Tree.schema.HoldsInline 1 1 := by
  obtain ⟨hexact, hacyclic⟩ := boxing_exact Tree.link_files
  have hmark : (⟨"mark", 1, .optional, .message 0, false, none, false⟩ : Field) ∈
      Tree.schema.fields 1 := by decide
  have hunboxed := mt (hexact 1 _ hmark).mpr (by decide)
  exact ⟨Tree.link_files, rfl, .refl, fun hback => hunboxed ⟨0, by decide, hback⟩, hacyclic 1⟩

end Linking

end Protobuf

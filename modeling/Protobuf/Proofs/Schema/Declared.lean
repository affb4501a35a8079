import Mathlib.Data.List.Forall2
import Protobuf.Proofs.Schema.TypeNames

/-! What linking keeps of the declarations.

A linked message is the outline of the message with fields put in, and a linked enum the outline of
the enum with values put in (`frames_of_link`, `enumFrames_of_link`). Both have one for each that is
declared, in the order of declaration, since one that has to be left out is a flaw
(`fields_of_link`, `values_of_link`). -/
namespace Protobuf

/-- The list that a filter leaves, if it keeps all members. -/
theorem forall₂_filterMap {α β : Type} {g : α → Option β} {l : List α}
    (h : ∀ x ∈ l, ∃ y, g x = some y) :
    List.Forall₂ (fun x y => g x = some y) l (l.filterMap g) := by
  induction l with
  | nil => exact .nil
  | cons x rest ih =>
    obtain ⟨y, hy⟩ := h x List.mem_cons_self
    rw [List.filterMap_cons_some hy]
    exact .cons hy (ih fun z hz => h z (List.mem_cons_of_mem x hz))

/-- What is the same of both members of each pair. -/
theorem map_eq_of_forall₂ {α β γ : Type} {R : α → β → Prop} {f : α → γ} {g : β → γ} {l : List α}
    {l' : List β} (h : List.Forall₂ R l l') (hkey : ∀ {a b}, R a b → f a = g b) :
    l.map f = l'.map g := by
  rw [← List.forall₂_eq_eq_eq, List.forall₂_map_left_iff, List.forall₂_map_right_iff]
  exact h.imp fun _ _ => hkey

theorem exists_of_forall₂_left {α β : Type} {R : α → β → Prop} {l : List α} {l' : List β}
    (h : List.Forall₂ R l l') {k : Nat} {a : α} (ha : l[k]? = some a) :
    ∃ b, l'[k]? = some b ∧ R a b := by
  induction h generalizing k with
  | nil => cases ha
  | cons hab _ ih =>
    cases k with
    | zero =>
      cases ha
      exact ⟨_, rfl, hab⟩
    | succ k => exact ih ha

theorem exists_of_forall₂_right {α β : Type} {R : α → β → Prop} {l : List α} {l' : List β}
    (h : List.Forall₂ R l l') {k : Nat} {b : β} (hb : l'[k]? = some b) :
    ∃ a, l[k]? = some a ∧ R a b :=
  exists_of_forall₂_left h.flip hb

theorem exists_of_forall₂_mem {α β : Type} {R : α → β → Prop} {l : List α} {l' : List β}
    (h : List.Forall₂ R l l') {a : α} (ha : a ∈ l) : ∃ b, b ∈ l' ∧ R a b := by
  obtain ⟨k, hk⟩ := List.mem_iff_getElem?.mp ha
  obtain ⟨b, hb, hab⟩ := exists_of_forall₂_left h hk
  exact ⟨b, List.mem_of_getElem? hb, hab⟩

/-- Lists with the same images have, at each place, members with the same image. -/
theorem exists_of_map_eq {α β γ : Type} {f : α → γ} {g : β → γ} {l : List α} {l' : List β}
    (h : l.map f = l'.map g) {k : Nat} {a : α} (ha : l[k]? = some a) :
    ∃ b, l'[k]? = some b ∧ g b = f a := by
  have hk := congrArg (·[k]?) h
  simp only [List.getElem?_map, ha, Option.map_some] at hk
  exact Option.map_eq_some_iff.mp hk.symm

/-- A message without its fields. -/
def Message.frame (m : Message) : Message :=
  { m with fields := [] }

/-- An enum without its values. -/
def Enum.frame (e : Enum) : Enum :=
  { e with values := [] }

def MessageOutline.frame (m : MessageOutline) : Message :=
  ⟨m.decl.name.value, m.fullName, m.file, m.parent, [], m.messages, m.enums⟩

def EnumOutline.frame (e : EnumOutline) : Enum :=
  ⟨e.decl.name.value, e.fullName, e.file, e.parent, []⟩

namespace EnumRules

/-- An enum without flaws keeps all its values, with their names and numbers. -/
theorem values_declared {edition : Decl.Edition} {e : Decl.Enum} (h : flaws edition e = []) :
    List.Forall₂ (fun v w => w.name = v.name.value ∧ v.number.toInt32? = some w.number) e.values
      (values e) := by
  refine List.Forall₂.imp ?_ (forall₂_filterMap fun v hv => ?_)
  · intro v w hvw
    obtain ⟨number, hnumber, rfl⟩ := Option.map_eq_some_iff.mp hvw
    exact ⟨rfl, hnumber⟩
  · obtain ⟨number, hnumber⟩ := (flaws_eq_nil_iff.mp h).exists_number hv
    exact ⟨_, Option.map_eq_some_iff.mpr ⟨number, hnumber, rfl⟩⟩

end EnumRules

namespace Linking
variable {files : List LoadedFile} {s : Schema} {i : Nat} {m : MessageOutline} {x : EnumOutline}

/-! ### Frames -/

theorem frames_box (messages : List Message) :
    (box messages).map (·.frame) = messages.map (·.frame) := by
  apply List.ext_getElem?
  intro k
  rw [List.getElem?_map, List.getElem?_map, box, List.getElem?_mapIdx]
  cases messages[k]? <;> rfl

theorem frames_of_link (h : link files = .ok s) :
    s.messages.map (·.frame) = (Outline.ofFiles files).1.messages.map (·.frame) := by
  rw [(eq_of_link h).1, frames_box, messagesOf, checkMessages, List.map_map, List.map_map]
  rfl

theorem enumFrames_of_link (h : link files = .ok s) :
    s.enums.map (·.frame) = (Outline.ofFiles files).1.enums.map (·.frame) := by
  rw [(eq_of_link h).1, enumsOf, checkEnums, List.map_map, List.map_map]
  rfl

theorem files_of_link (h : link files = .ok s) : s.files = (Outline.ofFiles files).2 := by
  rw [(eq_of_link h).1]

theorem exists_frame_of_link (h : link files = .ok s)
    (hm : (Outline.ofFiles files).1.messages[i]? = some m) :
    ∃ message, s.messages[i]? = some message ∧ message.frame = m.frame :=
  exists_of_map_eq (frames_of_link h).symm hm

theorem exists_enumFrame_of_link (h : link files = .ok s)
    (hx : (Outline.ofFiles files).1.enums[i]? = some x) :
    ∃ e, s.enums[i]? = some e ∧ e.frame = x.frame :=
  exists_of_map_eq (enumFrames_of_link h).symm hx

theorem exists_outline_of_link (h : link files = .ok s) {message : Message}
    (hmessage : s.messages[i]? = some message) :
    ∃ m, (Outline.ofFiles files).1.messages[i]? = some m ∧ m.frame = message.frame :=
  exists_of_map_eq (frames_of_link h) hmessage

/-! ### No definition has flaws -/

theorem message_flaws_of_link (h : link files = .ok s)
    (hm : (Outline.ofFiles files).1.messages[i]? = some m) :
    (message (contextOf files m.file) m).flaws = [] :=
  flaws_eq_nil (List.append_eq_nil_iff.mp (findings_of_link h)).2
    (List.mem_of_getElem? (getElem?_messagesOf hm))

theorem enum_flaws_of_link (h : link files = .ok s)
    (hx : (Outline.ofFiles files).1.enums[i]? = some x) :
    EnumRules.flaws (edition files x.file) x.decl = [] := by
  have hmem : (x.file, enum (edition files x.file) x) ∈ enumsOf files :=
    List.mem_map_of_mem (List.mem_of_getElem? hx)
  exact flaws_eq_nil (List.append_eq_nil_iff.mp (findings_of_link h)).1 hmem

/-! ### Fields and values -/

theorem flaws_fieldType_eq_nil {ctx : Context} {scope : QualifiedName} {f : Decl.Field}
    (h : (field ctx scope f).flaws = []) : (fieldType ctx scope f).flaws = [] :=
  List.subset_nil.mp (h ▸ fun _ => flaws_fieldType_subset)

/-- A field without flaws is kept. -/
theorem exists_field {ctx : Context} {m : MessageOutline} (h : (message ctx m).flaws = [])
    {f : Decl.Field} (hf : f ∈ m.decl.fields) :
    (field ctx m.fullName f).flaws = [] ∧ ∃ g, (field ctx m.fullName f).value = some g := by
  obtain ⟨hrules, hlinked⟩ := List.append_eq_nil_iff.mp h
  have hflaws : (field ctx m.fullName f).flaws = [] :=
    List.flatMap_eq_nil_iff.mp hlinked _ (List.mem_map_of_mem hf)
  obtain ⟨t, ht⟩ := exists_fieldType (flaws_fieldType_eq_nil hflaws)
  obtain ⟨number, hnumber⟩ := (FieldRules.flaws_eq_nil_iff.mp hrules).exists_number hf
  refine ⟨hflaws, ?_⟩
  simp only [field, ht, hnumber]
  exact ⟨_, rfl⟩

theorem getElem?_messages_of_link (h : link files = .ok s)
    (hm : (Outline.ofFiles files).1.messages[i]? = some m) :
    s.messages[i]? = some { (message (contextOf files m.file) m).value with
      fields := (message (contextOf files m.file) m).value.fields.map
        (boxField (containment ((messagesOf files).map (·.2.value))).componentNumbers i) } := by
  have hmessage : ((messagesOf files).map (·.2.value))[i]? =
      some (message (contextOf files m.file) m).value := by
    rw [List.getElem?_map, getElem?_messagesOf hm, Option.map_some]
  rw [(eq_of_link h).1]
  exact getElem?_box hmessage

theorem getElem?_enums_of_link (h : link files = .ok s)
    (hx : (Outline.ofFiles files).1.enums[i]? = some x) :
    s.enums[i]? = some (enum (edition files x.file) x).value := by
  rw [(eq_of_link h).1, enumsOf, checkEnums, List.map_map, List.getElem?_map, hx]
  rfl

/-- The fields of a message are linked in order, and then boxed. -/
theorem fields_of_link (h : link files = .ok s)
    (hm : (Outline.ofFiles files).1.messages[i]? = some m) :
    ∃ message, s.messages[i]? = some message ∧
      List.Forall₂ (fun f g => ∃ linked,
        (field (contextOf files m.file) m.fullName f).value = some linked ∧
        boxField (containment ((messagesOf files).map (·.2.value))).componentNumbers i linked = g)
        m.decl.fields message.fields := by
  have hflaws := message_flaws_of_link h hm
  have hkept := forall₂_filterMap fun f hf => (exists_field hflaws hf).2
  refine ⟨_, getElem?_messages_of_link h hm, ?_⟩
  rw [List.forall₂_map_right_iff, message, List.filterMap_map]
  exact hkept.imp fun f linked hlinked => ⟨linked, hlinked, rfl⟩

theorem values_of_link (h : link files = .ok s)
    (hx : (Outline.ofFiles files).1.enums[i]? = some x) :
    ∃ e, s.enums[i]? = some e ∧
      List.Forall₂ (fun v w => w.name = v.name.value ∧ v.number.toInt32? = some w.number)
        x.decl.values e.values :=
  ⟨_, getElem?_enums_of_link h hx, EnumRules.values_declared (enum_flaws_of_link h hx)⟩

/-- A type that a field is linked to is scalar, or a name stands for it. -/
theorem exists_entry_of_type {ctx : Context} {scope : QualifiedName} {f : Decl.Field}
    {t : FieldType} (h : (fieldType ctx scope f).value = some t) :
    (∃ type, t = .scalar type) ∨ ∃ entry ∈ ctx.registry, typeOf entry.definition = some t := by
  cases htype : f.type with
  | scalar type =>
    simp only [fieldType, htype, Option.some.injEq] at h
    exact .inl ⟨type, h.symm⟩
  | named type =>
    simp only [fieldType, htype, namedType] at h
    cases hresolve : ctx.registry.resolve scope type with
    | none => simp [hresolve] at h
    | some entry =>
      cases hrefusal : refusal ctx entry with
      | some hint => simp [hresolve, hrefusal] at h
      | none =>
        simp only [hresolve, hrefusal] at h
        exact .inr ⟨entry, Registry.mem_of_resolve hresolve, h⟩

/-- What a field is linked to. -/
theorem eq_of_field {ctx : Context} {scope : QualifiedName} {f : Decl.Field} {g : Field}
    (h : (field ctx scope f).value = some g) :
    (fieldType ctx scope f).value = some g.type ∧ FieldRules.number? f.number = some g.number ∧
      g.name = f.name.value ∧ g.cardinality = cardinality f.label g.type ∧
      g.packed = (packed f (isPackable g.cardinality g.type)).value ∧
      g.default = (default ctx f g.cardinality g.type).value ∧
      (default ctx f g.cardinality g.type).flaws ⊆ (field ctx scope f).flaws := by
  unfold field at h ⊢
  dsimp only at h ⊢
  split at h
  · rename_i htype hnumber
    cases h
    exact ⟨htype, hnumber, rfl, rfl, rfl, rfl, List.subset_append_right _ _⟩
  · cases h

theorem boxField_name (components : List Nat) (owner : Nat) (f : Field) :
    (boxField components owner f).name = f.name := by
  unfold boxField
  split <;> rfl

end Linking

end Protobuf

import Protobuf.Proofs.Schema.Renumbering

/-! The order of files does not matter.

Files may be linked in any order in which each comes after its imports. Two such orders are linked
both or neither, and give schemas that differ in numbers only (`link_reordered`). Full names are
what ties definitions to each other: a parent is known by its full name, and so are the definitions
that a message or a file lists. Whether a field is boxed is a matter of which messages reach which,
and that is carried along by the new numbers (`Aligned.reaches_iff`). -/
namespace Protobuf
open Relation (ReflTransGen)

/-- One schema has what another has, under new numbers. -/
structure Schema.Renumbers (ρ : Renumbering) (s t : Schema) : Prop where
  files : ∀ k, t.files[ρ.file k]? = s.files[k]?.map ρ.onFile
  messages : ∀ i, t.messages[ρ.message i]? = s.messages[i]?.map ρ.onMessage
  enums : ∀ i, t.enums[ρ.enum i]? = s.enums[i]?.map ρ.onEnum

/-- Two lists that go with the same third one. -/
theorem eq_map_of_forall₂ {α β γ : Type} {R : α → γ → Prop} {S : β → γ → Prop} {g : α → β}
    {l : List α} {l' : List β} {ds : List γ} (hl : List.Forall₂ R l ds)
    (hl' : List.Forall₂ S l' ds) (h : ∀ {a b d}, R a d → S b d → b = g a) : l' = l.map g := by
  induction hl generalizing l' with
  | nil =>
    cases hl'
    rfl
  | cons hab _ ih =>
    cases hl' with
    | cons hab' hrest => rw [List.map_cons, h hab hab', ih hrest]

/-- A list is another one under new numbers if all members are found, both ways. -/
theorem getElem?_eq_map {α : Type} {l l' : List α} {σ : Equiv.Perm Nat} {g g' : α → α}
    (h : ∀ {i a}, l[i]? = some a → l'[σ i]? = some (g a))
    (h' : ∀ {j b}, l'[j]? = some b → l[σ.symm j]? = some (g' b)) (i : Nat) :
    l'[σ i]? = l[i]?.map g := by
  cases hi : l[i]? with
  | some a => exact h hi
  | none =>
    cases hj : l'[σ i]? with
    | none => rfl
    | some b =>
      have hback := h' hj
      rw [Equiv.symm_apply_apply, hi] at hback
      cases hback

namespace Linking
open Outline (ofFiles)
variable {files : List LoadedFile} {s : Schema} {i k : Nat}

/-! ### What a linked schema has under a number -/

theorem exists_file_of_link (h : link files = .ok s) {f : LoadedFile} (hf : files[k]? = some f) :
    ∃ entry, s.files[k]? = some entry ∧ (ofFiles files).1.FileAt k f entry := by
  have hmem : files.zipIdx[k]? = some (f, k) := by
    rw [List.getElem?_zipIdx, hf, Option.map_some, Nat.zero_add]
  rw [files_of_link h]
  exact exists_of_forall₂_left (Outline.ofFiles_at files) hmem

/-- The parent of a definition is known by its full name. -/
theorem exists_parent_of_link (h : link files = .ok s) {kind : Kind} {d : Place}
    (hd : ((ofFiles files).1.places kind)[i]? = some d) {p : Nat} (hp : d.parent = some p) :
    ∃ q, ((ofFiles files).1.places .message)[p]? = some q ∧
      d.fullName = q.fullName ++ [d.name] := by
  rw [← places_of_link h] at hd
  obtain ⟨q, hq, _, hname⟩ := (listing_right h kind).parent_exists hd hp
  refine ⟨q.place, ?_, hname⟩
  rw [← places_of_link h, place_of_message hq]

theorem fields_of_getElem? {m : Message} (hm : s.messages[i]? = some m) :
    s.fields i = m.fields := by
  rw [Schema.fields, hm]

theorem exists_of_holds {a b : Nat} (h : s.Holds a b) :
    ∃ m, s.messages[a]? = some m ∧ ∃ g ∈ m.fields, g.singularMessage? = some b := by
  obtain ⟨g, hg, hsingular⟩ := h
  unfold Schema.fields at hg
  split at hg
  · exact ⟨_, by assumption, g, hg, Field.singularMessage?_eq_some_iff.mpr hsingular⟩
  · cases hg

theorem boxField_eq (components : List Nat) (owner : Nat) (f : Field) :
    boxField components owner f = { f with boxed := (boxField components owner f).boxed } := by
  unfold boxField
  split <;> rfl

namespace Aligned
variable {ρ : Renumbering} {files' : List LoadedFile} {t : Schema} {a b : Nat}

/-! ### Lists of numbers and parents -/

theorem listed (h : Aligned ρ files files') (ht : link files' = .ok t) {kind : Kind}
    {site site' : Outline.Site} {l l' : List Nat} {names : List String}
    (hl : List.Forall₂ ((ofFiles files).1.PlaceAt kind site) l names)
    (hl' : List.Forall₂ ((ofFiles files').1.PlaceAt kind site') l' names)
    (hscope : site'.scope = site.scope) : l' = l.map (ρ.on kind) := by
  refine eq_map_of_forall₂ hl hl' ?_
  rintro a b name ⟨d, hd, hname, hfull, _⟩ ⟨d', hd', hname', hfull', _⟩
  obtain ⟨moved, hmoved, hsame, _⟩ := h.place hd
  refine place_unique (clashFree_of_link ht) hd' hmoved ?_
  rw [hfull', hname', hsame, hfull, hname, hscope]

/-- Definitions with the same full name have the same parent. -/
theorem parent (h : Aligned ρ files files') (hs : link files = .ok s) (ht : link files' = .ok t)
    {kind : Kind} {d d' : Place} (hd : ((ofFiles files).1.places kind)[a]? = some d)
    (hd' : ((ofFiles files').1.places kind)[b]? = some d') (hfull : d'.fullName = d.fullName)
    (hnested : d'.parent.isSome = d.parent.isSome) : d'.parent = d.parent.map ρ.message := by
  cases hp : d.parent with
  | none =>
    rw [hp] at hnested
    exact Option.isNone_iff_eq_none.mp (Option.isSome_eq_false_iff.mp hnested)
  | some p =>
    rw [hp] at hnested
    obtain ⟨p', hp'⟩ := Option.isSome_iff_exists.mp hnested
    obtain ⟨q, hq, hqname⟩ := exists_parent_of_link hs hd hp
    obtain ⟨q', hq', hqname'⟩ := exists_parent_of_link ht hd' hp'
    obtain ⟨moved, hmoved, hsame, _⟩ := h.place hq
    have hboth : q'.fullName ++ [d'.name] = q.fullName ++ [d.name] := by
      rw [← hqname', ← hqname, hfull]
    have hparents : q'.fullName = moved.fullName := by
      rw [hsame]
      exact (List.append_inj' hboth rfl).1
    rw [hp', Option.map_some, place_unique (clashFree_of_link ht) hq' hmoved hparents,
      Renumbering.on]

/-! ### Which messages reach which -/

/-- A message has the same fields under both its numbers, but for the boxing. -/
theorem exists_fields (h : Aligned ρ files files') (hs : link files = .ok s)
    (ht : link files' = .ok t) {m m' : Message} (hm : s.messages[i]? = some m)
    (hm' : t.messages[ρ.message i]? = some m') :
    ∃ (linked : List Field) (components components' : List Nat),
      m.fields = linked.map (boxField components i) ∧
      m'.fields = linked.map fun g => boxField components' (ρ.message i) (ρ.onField g) := by
  obtain ⟨o, ho, _⟩ := exists_outline_of_link hs hm
  obtain ⟨o', ho', hdecl, hname, hfile, _⟩ := h.message ho
  have hlinked := h.message_linked (clashFree_of_link hs) (List.mem_of_getElem? ho) hdecl hname
    hfile (message_flaws_of_link hs ho)
  rw [getElem?_messages_of_link hs ho, Option.some.injEq] at hm
  rw [getElem?_messages_of_link ht ho', Option.some.injEq, hlinked.2, List.map_map] at hm'
  exact ⟨_, _, _, congrArg Message.fields hm.symm, congrArg Message.fields hm'.symm⟩

theorem exists_message (h : Aligned ρ files files') (hs : link files = .ok s)
    (ht : link files' = .ok t) {m : Message} (hm : s.messages[i]? = some m) :
    ∃ m', t.messages[ρ.message i]? = some m' := by
  obtain ⟨o, ho, _⟩ := exists_outline_of_link hs hm
  obtain ⟨o', ho', _⟩ := h.message ho
  exact ⟨_, getElem?_messages_of_link ht ho'⟩

theorem holds (h : Aligned ρ files files') (hs : link files = .ok s) (ht : link files' = .ok t)
    (hab : s.Holds a b) : t.Holds (ρ.message a) (ρ.message b) := by
  obtain ⟨m, hm, g, hg, hsingular⟩ := exists_of_holds hab
  obtain ⟨m', hm'⟩ := h.exists_message hs ht hm
  obtain ⟨linked, components, components', hfields, hfields'⟩ := h.exists_fields hs ht hm hm'
  rw [hfields] at hg
  obtain ⟨f, hf, rfl⟩ := List.mem_map.mp hg
  rw [boxField_singularMessage?] at hsingular
  refine ⟨boxField components' (ρ.message a) (ρ.onField f), ?_, ?_⟩
  · rw [fields_of_getElem? hm', hfields']
    exact List.mem_map.mpr ⟨f, hf, rfl⟩
  · rw [← Field.singularMessage?_eq_some_iff, boxField_singularMessage?,
      ρ.singularMessage?_onField, hsingular, Option.map_some]

theorem reaches_iff (h : Aligned ρ files files') (hs : link files = .ok s)
    (ht : link files' = .ok t) :
    ReflTransGen t.Holds (ρ.message a) (ρ.message b) ↔ ReflTransGen s.Holds a b := by
  constructor
  · intro hreach
    have hback : ReflTransGen s.Holds (ρ.message.symm (ρ.message a))
        (ρ.message.symm (ρ.message b)) :=
      hreach.lift ρ.message.symm fun _ _ => h.symm.holds ht hs
    rwa [Equiv.symm_apply_apply, Equiv.symm_apply_apply] at hback
  · intro hreach
    exact hreach.lift ρ.message fun _ _ => h.holds hs ht

/-- A message has the same fields under both its numbers. -/
theorem fields_eq (h : Aligned ρ files files') (hs : link files = .ok s) (ht : link files' = .ok t)
    {m m' : Message} (hm : s.messages[i]? = some m) (hm' : t.messages[ρ.message i]? = some m') :
    m'.fields = m.fields.map ρ.onField := by
  obtain ⟨linked, components, components', hfields, hfields'⟩ := h.exists_fields hs ht hm hm'
  rw [hfields, hfields', List.map_map]
  refine List.map_congr_left fun g hg => ?_
  have hmem : boxField components i g ∈ s.fields i := by
    rw [fields_of_getElem? hm, hfields]
    exact List.mem_map_of_mem hg
  have hmem' : boxField components' (ρ.message i) (ρ.onField g) ∈ t.fields (ρ.message i) := by
    rw [fields_of_getElem? hm', hfields']
    exact List.mem_map.mpr ⟨g, hg, rfl⟩
  have hboxed : (boxField components' (ρ.message i) (ρ.onField g)).boxed =
      (boxField components i g).boxed := by
    rw [Bool.eq_iff_iff, boxed_iff_reaches hs hmem, boxed_iff_reaches ht hmem']
    simp only [← Field.singularMessage?_eq_some_iff, boxField_singularMessage?,
      ρ.singularMessage?_onField]
    cases g.singularMessage? with
    | none => simp
    | some target => simp [h.reaches_iff hs ht]
  rw [boxField_eq, hboxed, Function.comp_apply, boxField_eq components]
  rfl

/-! ### Definitions and files -/

theorem message_eq (h : Aligned ρ files files') (hs : link files = .ok s) (ht : link files' = .ok t)
    {m : Message} (hm : s.messages[i]? = some m) :
    t.messages[ρ.message i]? = some (ρ.onMessage m) := by
  obtain ⟨o, ho, _, hnests⟩ := nests_of_link hs hm
  obtain ⟨o', ho', hdecl, hname, hfile, hnested⟩ := h.message ho
  have hm' := getElem?_messages_of_link ht ho'
  have hnests' := Outline.ofFiles_nests files' ho'
  have hparent : o'.parent = o.parent.map ρ.message :=
    h.parent hs ht (Outline.place_of_message ho) (Outline.place_of_message ho') hname hnested
  have hlisted (kind : Kind) : o'.nested kind = (o.nested kind).map (ρ.on kind) :=
    h.listed ht (hnests.placed kind) (hdecl ▸ hnests'.placed kind) hname
  have hfields := h.fields_eq hs ht hm hm'
  rw [getElem?_messages_of_link hs ho, Option.some.injEq] at hm
  subst hm
  rw [hm', Option.some.injEq, Renumbering.onMessage, Message.mk.injEq]
  exact ⟨congrArg (·.name.value) hdecl, hname, hfile, hparent, hfields, hlisted .message,
    hlisted .enum⟩

theorem enum_eq (h : Aligned ρ files files') (hs : link files = .ok s) (ht : link files' = .ok t)
    {e : Enum} (he : s.enums[i]? = some e) : t.enums[ρ.enum i]? = some (ρ.onEnum e) := by
  obtain ⟨x, hx, _⟩ := exists_of_map_eq (enumFrames_of_link hs) he
  obtain ⟨x', hx', hdecl, hname, hfile, hnested⟩ := h.enum hx
  have hparent : x'.parent = x.parent.map ρ.message :=
    h.parent hs ht (Outline.place_of_enum hx) (Outline.place_of_enum hx') hname hnested
  rw [getElem?_enums_of_link hs hx, Option.some.injEq] at he
  rw [getElem?_enums_of_link ht hx', ← he]
  simp only [Linking.enum, Renumbering.onEnum, hdecl, hname, hfile, hparent]

theorem file_entry_eq (h : Aligned ρ files files') (hs : link files = .ok s)
    (ht : link files' = .ok t) {entry : SchemaFile} (hentry : s.files[k]? = some entry) :
    t.files[ρ.file k]? = some (ρ.onFile entry) := by
  obtain ⟨f, hf, hat⟩ := fileAt_of_link hs hentry
  obtain ⟨entry', hentry', hat'⟩ := exists_file_of_link ht ((h.lookup k).trans hf)
  have hlisted (kind : Kind) := h.listed ht (hat.placed kind) (hat'.placed kind) rfl
  have hmessages : entry'.messages = entry.messages.map ρ.message := hlisted .message
  have henums : entry'.enums = entry.enums.map ρ.enum := hlisted .enum
  rw [hentry', Option.some.injEq, Renumbering.onFile, hat.name, hat.package, hat.edition,
    hat.isRoot, ← hmessages, ← henums, ← hat'.name, ← hat'.package, ← hat'.edition, ← hat'.isRoot]

theorem renumbers (h : Aligned ρ files files') (hs : link files = .ok s)
    (ht : link files' = .ok t) : s.Renumbers ρ t where
  files := getElem?_eq_map (h.file_entry_eq hs ht) (h.symm.file_entry_eq ht hs)
  messages := getElem?_eq_map (h.message_eq hs ht) (h.symm.message_eq ht hs)
  enums := getElem?_eq_map (h.enum_eq hs ht) (h.symm.enum_eq ht hs)

end Aligned

/-- **The order of files does not matter.** Take the same files, with distinct names, in two orders
in both of which every file comes after its imports. They are linked in one order if and only if
they are in the other. The two schemas then differ in numbers only: each file, message and enum is
there in both, with the same names, parents, nested definitions, fields and values. -/
theorem link_reordered {files files' : List LoadedFile} (hperm : files.Perm files')
    (hdistinct : (files.map (·.source.name)).Nodup) (hfirst : Visibility.ImportsFirst files)
    (hfirst' : Visibility.ImportsFirst files') :
    ((∃ s, link files = .ok s) ↔ ∃ t, link files' = .ok t) ∧
      ∀ s t, link files = .ok s → link files' = .ok t → ∃ ρ, s.Renumbers ρ t := by
  obtain ⟨ρ, h⟩ := exists_aligned ⟨hperm, hdistinct, hfirst, hfirst'⟩
  exact ⟨⟨h.exists_link, h.symm.exists_link⟩, fun s t hs ht => ⟨ρ, h.renumbers hs ht⟩⟩

end Linking

/-! ### Rates before stamps -/

namespace Mail

/-- The files in another order: the letter still comes after the stamp. -/
def reordered : List LoadedFile :=
  [rate, stamp, letter]

theorem files_importsFirst : Visibility.ImportsFirst files := by
  intro k f hf name hname
  match k with
  | 0 =>
    cases hf
    cases hname
  | 1 =>
    cases hf
    exact ⟨0, stamp, Nat.zero_lt_one, rfl, (List.mem_singleton.mp hname).symm⟩
  | 2 =>
    cases hf
    cases hname
  | _ + 3 => cases hf

theorem reordered_importsFirst : Visibility.ImportsFirst reordered := by
  intro k f hf name hname
  match k with
  | 0 | 1 =>
    cases hf
    cases hname
  | 2 =>
    cases hf
    exact ⟨1, stamp, Nat.one_lt_two, rfl, (List.mem_singleton.mp hname).symm⟩
  | _ + 3 => cases hf

end Mail

namespace Linking

/-- The rate comes first now, and is enum 0 in the place of the kind. -/
theorem link_reordered_mail :
    Mail.files.Perm Mail.reordered ∧ (Mail.files.map (·.source.name)).Nodup ∧
      Visibility.ImportsFirst Mail.files ∧ Visibility.ImportsFirst Mail.reordered ∧
      ∃ t ρ, link Mail.reordered = .ok t ∧ Mail.schema.Renumbers ρ t ∧
        t.enums[0]?.map (·.fullName) = some ["post", "Rate"] ∧
        Mail.schema.enums[0]?.map (·.fullName) = some ["post", "Stamp", "Kind"] := by
  have hperm : Mail.files.Perm Mail.reordered :=
    ((List.Perm.swap Mail.rate Mail.letter []).cons Mail.stamp).trans
      (.swap Mail.rate Mail.stamp [Mail.letter])
  have hdistinct : (Mail.files.map (·.source.name)).Nodup := by decide
  obtain ⟨hiff, hsame⟩ :=
    link_reordered hperm hdistinct Mail.files_importsFirst Mail.reordered_importsFirst
  obtain ⟨t, ht⟩ := hiff.mp ⟨_, Mail.link_files⟩
  obtain ⟨ρ, hρ⟩ := hsame _ t Mail.link_files ht
  have henum : (link Mail.reordered).toOption.bind (·.enums[0]?.map (·.fullName)) =
      some ["post", "Rate"] := rfl
  rw [ht] at henum
  exact ⟨hperm, hdistinct, Mail.files_importsFirst, Mail.reordered_importsFirst, t, ρ, ht, hρ,
    henum, rfl⟩

end Linking

end Protobuf

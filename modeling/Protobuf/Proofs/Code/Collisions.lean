import Mathlib.Data.List.Perm.Basic
import Mathlib.Data.List.Nodup
import Protobuf.Code.MessageType
import Protobuf.Proofs.Schema.Duplicates

/-! Which names collide in generated code.

Code has other names than the declarations that it is generated for. They are put in snake or Pascal
case, and words of the language are escaped, so that different names can become one identifier.
Linking compares the identifiers of the fields of a message and those of the values of an enum, and
no two of them are ever the same. It does not look at modules, at types and at methods. Their names
collide exactly where `collisions_exact` says: a field that is read by a method of its own has the
name of the setter of another one, the full names of two definitions merge part by part, or a type
is named like a module beside it. -/
namespace Protobuf

/-! ### Identifiers -/

namespace Ident

/-- Two words become one identifier: they are the same, or one of them cannot be an identifier and
the other one is how it is written. -/
def Merge (a b : String) : Prop :=
  a = b ∨ (a ∈ pathKeywords ∧ b = a ++ "_") ∨ (b ∈ pathKeywords ∧ a = b ++ "_")

instance (a b : String) : Decidable (Merge a b) :=
  inferInstanceAs (Decidable (_ ∨ _))

/-- The full names of two modules become one path. -/
def MergePath (a b : QualifiedName) : Prop :=
  List.Forall₂ (fun x y => Merge (snake x) (snake y)) a b

instance (a b : QualifiedName) : Decidable (MergePath a b) :=
  inferInstanceAs (Decidable (List.Forall₂ _ _ _))

theorem hash_notMem {name : String} (h : IsPlain name) : '#' ∉ name.toList := by
  intro hhash
  have := h '#' hhash
  revert this
  decide

theorem toLower_isWordChar {c : Char} (h : c.isUpper = true) :
    Lexer.isWordChar c.toLower = true := by
  have hbounds : 65 ≤ c.val ∧ c.val ≤ 90 := of_decide_eq_true h
  have hval : c.toLower.val = c.val + 32 := congrArg Char.val (dif_pos hbounds)
  have hlower : (decide (97 ≤ c.toLower.val) && decide (c.toLower.val ≤ 122)) = true := by
    rw [hval, Bool.and_eq_true, decide_eq_true_eq, decide_eq_true_eq]
    simp only [UInt32.le_iff_toNat_le, UInt32.toNat_add, UInt32.reduceToNat] at hbounds ⊢
    omega
  have halpha : c.toLower.isAlpha = true := Bool.or_eq_true_iff.mpr (.inr hlower)
  rw [Lexer.isWordChar, Char.isAlphanum, halpha, Bool.true_or, Bool.true_or]

theorem snake_plain (name : String) : IsPlain (snake name) := by
  have hfrom : ∀ before text, ∀ c ∈ snakeFrom before text, Lexer.isWordChar c = true := by
    intro before text
    fun_induction snakeFrom before text <;> grind [toLower_isWordChar, Lexer.isWordChar]
  intro c hc
  rw [snake, String.toList_ofList] at hc
  exact hfrom none name.toList c hc

theorem marked_plain {name : String} (h : IsPlain name) : IsPlain (name ++ "_") := by
  intro c hc
  rw [String.toList_append, List.mem_append] at hc
  rcases hc with hc | hc
  · exact h c hc
  · rw [List.mem_singleton.mp hc]
    rfl

/-- A raw identifier is no plain name. -/
theorem raw_ne {name other : String} (h : IsPlain other) : "r#" ++ name ≠ other := by
  intro hraw
  refine hash_notMem h ?_
  rw [← hraw]
  simp

theorem notMem_keywords : ∀ word ∈ pathKeywords,
    word ∉ keywords ∧ word ++ "_" ∉ keywords ∧ word ++ "_" ∉ pathKeywords := by
  decide +kernel

/-- Escaping keeps plain names apart unless they merge. -/
theorem escape_eq_iff {a b : String} (ha : IsPlain a) (hb : IsPlain b) :
    escape a = escape b ↔ Merge a b := by
  have hraw := @raw_ne a b hb
  have hraw' := @raw_ne b a ha
  have hmarked := @raw_ne a (b ++ "_") (marked_plain hb)
  have hmarked' := @raw_ne b (a ++ "_") (marked_plain ha)
  have hword := notMem_keywords a
  have hword' := notMem_keywords b
  unfold escape Merge
  grind [String.append_left_inj, String.append_right_inj]

theorem moduleName_eq_iff {a b : String} :
    moduleName a = moduleName b ↔ Merge (snake a) (snake b) :=
  escape_eq_iff (snake_plain a) (snake_plain b)

theorem map_moduleName_eq_iff {a b : QualifiedName} :
    a.map moduleName = b.map moduleName ↔ MergePath a b := by
  rw [← List.forall₂_eq_eq_eq, List.forall₂_map_left_iff, List.forall₂_map_right_iff]
  simp only [moduleName_eq_iff, MergePath]

/-- No word of the language begins like the name of a setter, nor does one that is escaped. -/
theorem setter_notMem (name : String) : "set_" ++ name ∉ keywords ∧
    "set_" ++ name ∉ pathKeywords ∧ ∀ word ∈ pathKeywords, "set_" ++ name ≠ word ++ "_" := by
  have hsetter : ("set_" ++ name).toList.take 4 = "set_".toList := by simp
  have hkeyword : ∀ word ∈ keywords, word.toList.take 4 ≠ "set_".toList := by decide +kernel
  have hpath : ∀ word ∈ pathKeywords, word.toList.take 4 ≠ "set_".toList ∧
      (word ++ "_").toList.take 4 ≠ "set_".toList := by decide +kernel
  refine ⟨fun h => hkeyword _ h hsetter, fun h => (hpath _ h).1 hsetter, fun word hword h => ?_⟩
  exact (hpath word hword).2 (h ▸ hsetter)

/-- The identifier of a field is the name of a setter if it begins like one. -/
theorem field_eq_setter_iff {a b : String} :
    field a = "set_" ++ b ↔ snake a = "set_" ++ b := by
  obtain ⟨hkeyword, hpath, hmarked⟩ := setter_notMem b
  have hraw : "r#" ++ snake a ≠ "set_" ++ b := by
    intro h
    have hhead := congrArg (fun text => text.toList.head?) h
    simp at hhead
  have hmarked := hmarked (snake a)
  unfold field escape
  grind

end Ident

/-! ### Fields and values -/

namespace Linking
variable {files : List LoadedFile} {s : Schema}

theorem fieldIdents_nodup (h : link files = .ok s) {m : Message} (hm : m ∈ s.messages) :
    (m.fields.map (Ident.field ·.name)).Nodup := by
  obtain ⟨i, hi⟩ := List.mem_iff_getElem?.mp hm
  obtain ⟨o, ho, _⟩ := exists_outline_of_link h hi
  obtain ⟨m', hm', hfields⟩ := fields_of_link h ho
  obtain rfl : m' = m := Option.some.inj (hm'.symm.trans hi)
  have hrules := (List.append_eq_nil_iff.mp (message_flaws_of_link h ho)).1
  have hnodup := (FieldRules.flaws_eq_nil_iff.mp hrules).idents
  rwa [map_eq_of_forall₂ hfields] at hnodup
  intro f g hlinked
  obtain ⟨linked, hlinked, rfl⟩ := hlinked
  rw [boxField_name, (eq_of_field hlinked).2.2.1]

theorem valueIdents_nodup (h : link files = .ok s) {x : Enum} (hx : x ∈ s.enums) :
    (x.values.map EnumType.variantIdent).Nodup := by
  obtain ⟨i, hi⟩ := List.mem_iff_getElem?.mp hx
  obtain ⟨o, ho, _⟩ := exists_of_map_eq (enumFrames_of_link h) hi
  obtain ⟨x', hx', hvalues⟩ := values_of_link h ho
  obtain rfl : x' = x := Option.some.inj (hx'.symm.trans hi)
  have hnodup := (EnumRules.flaws_eq_nil_iff.mp (enum_flaws_of_link h ho)).idents
  rwa [map_eq_of_forall₂ hvalues] at hnodup
  intro v w hname
  rw [EnumType.variantIdent, hname.1]

end Linking

/-- Each value of an enum is either a variant or an alias. -/
theorem Enum.variants_append_aliases (e : Enum) : (e.variants ++ e.aliases).Perm e.values := by
  have hafter : ∀ seen values,
      (firstsAfter seen values ++ repeatsAfter seen values).Perm values := by
    intro seen values
    induction values generalizing seen with
    | nil => exact .nil
    | cons v rest ih =>
      rw [firstsAfter, repeatsAfter]
      split
      · exact List.perm_middle.trans ((ih seen).cons v)
      · exact (ih _).cons v
  exact hafter [] e.values

/-! ### Methods -/

/-- Whether a method reads the field. -/
def Field.hasGetter (f : Field) : Bool :=
  match f.type, f.cardinality with
  | .scalar _, .optional | .scalar _, .required => true
  | .enum _, .optional | .enum _, .required | .enum _, .implicit => true
  | _, _ => false

/-- Whether a method sets the field to an enum value. -/
def Field.hasSetter (f : Field) : Bool :=
  match f.type with
  | .enum _ => !f.isRepeated
  | _ => false

def Field.setter (f : Field) : String :=
  "set_" ++ Ident.snake f.name

namespace Message

/-- The fields of the struct. -/
def fieldCodes (s : Schema) (m : Message) : List MessageType.FieldCode :=
  m.fields.map (MessageType.FieldCode.ofField s (ModulePath.of s m.file m.parent))

/-- The methods that read and set fields. -/
def methods (s : Schema) (m : Message) : List MessageType.Method :=
  (m.fieldCodes s).flatMap (MessageType.accessors s)

end Message

namespace MessageType

theorem ident_ofField (s : Schema) (home : ModulePath) (f : Field) :
    (FieldCode.ofField s home f).ident = Ident.field f.name := by
  unfold FieldCode.ofField
  dsimp only
  split <;> rfl

theorem idents_fieldCodes (s : Schema) (m : Message) :
    (m.fieldCodes s).map (·.ident) = m.fields.map (Ident.field ·.name) := by
  rw [Message.fieldCodes, List.map_map]
  exact List.map_congr_left fun f _ => ident_ofField s _ f

theorem names_accessors {s : Schema} {f : Field}
    (htype : ∀ {index : Nat}, f.type = .enum index → index < s.enums.length) (home : ModulePath) :
    (accessors s (.ofField s home f)).map (·.name) =
      (if f.hasGetter then [Ident.field f.name] else []) ++
        if f.hasSetter then [f.setter] else [] := by
  unfold accessors FieldCode.ofField Field.hasGetter Field.hasSetter Field.isRepeated
  cases hf : f.type with
  | scalar type => cases f.cardinality <;> simp [scalarGetter, hf]
  | message index => cases f.cardinality <;> simp [hf]
  | enum index =>
    have henum := List.getElem?_eq_getElem (htype hf)
    cases hc : f.cardinality <;> simp [enumGetter, enumSetter, Field.setter, hf, hc, henum]

end MessageType

namespace Linking
variable {files : List LoadedFile} {s : Schema}

theorem flatMap_ite {α β : Type} (p : α → Bool) (key : α → β) (l : List α) :
    (l.flatMap fun a => if p a then [key a] else []) = (l.filter p).map key := by
  induction l with
  | nil => rfl
  | cons a rest ih => cases ha : p a <;> simp [ha, ih]

/-- The names of the methods are those of the getters and those of the setters. -/
theorem methodNames_perm (h : link files = .ok s) {m : Message} (hm : m ∈ s.messages) :
    ((m.methods s).map (·.name)).Perm
      ((m.fields.filter (·.hasGetter)).map (Ident.field ·.name) ++
        (m.fields.filter (·.hasSetter)).map (·.setter)) := by
  have hnames : (m.methods s).map (·.name) =
      m.fields.flatMap fun f => (if f.hasGetter then [Ident.field f.name] else []) ++
        if f.hasSetter then [f.setter] else [] := by
    rw [Message.methods, Message.fieldCodes, List.map_flatMap, List.flatMap_map]
    refine List.flatMap_congr fun f hf => ?_
    exact MessageType.names_accessors (enum_type_lt h hm hf) _
  rw [hnames, ← flatMap_ite, ← flatMap_ite]
  exact (List.flatMap_append_perm _ _ _).symm

theorem methodNames_nodup_iff (h : link files = .ok s) {m : Message} (hm : m ∈ s.messages) :
    ((m.methods s).map (·.name)).Nodup ↔ ∀ f ∈ m.fields, ∀ g ∈ m.fields, f.hasGetter = true →
      g.hasSetter = true → Ident.snake f.name ≠ g.setter := by
  have hidents := fieldIdents_nodup h hm
  have hsetters : (m.fields.map (·.setter)).Nodup := by
    refine List.pairwise_map.mpr ((List.pairwise_map.mp hidents).imp fun hne hsetter => hne ?_)
    rw [Ident.field, Ident.field, (String.append_right_inj "set_").mp hsetter]
  have hgetters' := hidents.sublist ((List.filter_sublist (p := (·.hasGetter))).map _)
  have hsetters' := hsetters.sublist ((List.filter_sublist (p := (·.hasSetter))).map _)
  rw [(methodNames_perm h hm).nodup_iff, List.nodup_append]
  constructor
  · intro hnodup f hf g hg hgetter hsetter hsame
    refine hnodup.2.2 _ (List.mem_map_of_mem (List.mem_filter.mpr ⟨hf, hgetter⟩)) _
      (List.mem_map_of_mem (List.mem_filter.mpr ⟨hg, hsetter⟩)) ?_
    exact Ident.field_eq_setter_iff.mpr hsame
  · intro hdiffer
    refine ⟨hgetters', hsetters', fun name hname other hother hsame => ?_⟩
    obtain ⟨f, hf, rfl⟩ := List.mem_map.mp hname
    obtain ⟨g, hg, rfl⟩ := List.mem_map.mp hother
    obtain ⟨hf, hgetter⟩ := List.mem_filter.mp hf
    obtain ⟨hg, hsetter⟩ := List.mem_filter.mp hg
    exact hdiffer f hf g hg hgetter hsetter (Ident.field_eq_setter_iff.mp hsame)

end Linking

/-! ### Modules and types -/

/-- The path of the type for a definition. -/
def Place.path (s : Schema) (d : Place) : ModulePath :=
  ModulePath.of s d.file d.parent ++ [Ident.escape d.name]

/-- The paths of two types become one. -/
def Place.Merge (a b : Place) : Prop :=
  Ident.MergePath a.fullName.dropLast b.fullName.dropLast ∧ Ident.Merge a.name b.name

instance (a b : Place) : Decidable (a.Merge b) :=
  inferInstanceAs (Decidable (_ ∧ _))

namespace Message

/-- Whether there is a module for what is nested in the message. -/
def hasModule (s : Schema) (m : Message) : Bool :=
  !(MessageType.nestedCode s (MessageType.code s) m).isEmpty

/-- The path of the module for what is nested in the message. -/
def modulePath (s : Schema) (m : Message) : ModulePath :=
  ModulePath.of s m.file m.parent ++ [Ident.moduleName m.name]

end Message

/-- The path of a type becomes that of the module for what is nested in a message. -/
def Place.MergeModule (d : Place) (m : Message) : Prop :=
  Ident.MergePath d.fullName.dropLast m.fullName.dropLast ∧ Ident.Merge d.name (Ident.snake m.name)

instance (d : Place) (m : Message) : Decidable (d.MergeModule m) :=
  inferInstanceAs (Decidable (_ ∧ _))

/-- The messages that have a module for what is nested in them. -/
def Schema.withModule (s : Schema) : List Message :=
  s.messages.filter (·.hasModule s)

namespace Linking
variable {files : List LoadedFile} {s : Schema}

theorem fullName_of_named {d : Place} (h : s.Named d) :
    d.fullName = d.fullName.dropLast ++ [d.name] := by
  obtain ⟨f, _, hname⟩ := h
  rw [hname, List.dropLast_concat]

/-- The module around a definition is named by the scope of its full name. -/
theorem modulePath_of_named {d : Place} (h : s.Named d) :
    ModulePath.of s d.file d.parent = d.fullName.dropLast.map Ident.moduleName := by
  obtain ⟨f, hf, hname⟩ := h
  rw [hname, List.dropLast_concat, ModulePath.of, hf]

theorem name_plain (hplain : ∀ f ∈ files, f.source.decl.Plain) (h : link files = .ok s)
    {d : Place} (hd : d ∈ s.places) : IsPlain d.name := by
  have hfull : d.fullName.Plain := by
    obtain ⟨_, _, hi⟩ := mem_places_iff.mp hd
    exact plain_of_declares hplain (declares_of_link h hi)
  refine hfull.parts d.name ?_
  rw [fullName_of_named (named_of_mem_places h hd)]
  exact List.mem_append_right _ List.mem_cons_self

theorem path_eq_iff (hplain : ∀ f ∈ files, f.source.decl.Plain) (h : link files = .ok s)
    {a b : Place} (ha : a ∈ s.places) (hb : b ∈ s.places) :
    a.path s = b.path s ↔ a.Merge b := by
  rw [Place.path, Place.path, modulePath_of_named (named_of_mem_places h ha),
    modulePath_of_named (named_of_mem_places h hb), ← List.concat_eq_append,
    ← List.concat_eq_append, List.concat_inj, Ident.map_moduleName_eq_iff,
    Ident.escape_eq_iff (name_plain hplain h ha) (name_plain hplain h hb), Place.Merge]

theorem place_mem_places {m : Message} (hm : m ∈ s.messages) : m.place ∈ s.places :=
  List.mem_append_left _ (List.mem_map_of_mem hm)

theorem modulePath_eq (h : link files = .ok s) {m : Message} (hm : m ∈ s.messages) :
    m.modulePath s = m.fullName.dropLast.map Ident.moduleName ++ [Ident.moduleName m.name] := by
  have hscope : ModulePath.of s m.file m.parent = _ :=
    modulePath_of_named (named_of_mem_places h (place_mem_places hm))
  rw [Message.modulePath, hscope]
  rfl

theorem modulePath_eq_iff (h : link files = .ok s) {a b : Message} (ha : a ∈ s.messages)
    (hb : b ∈ s.messages) :
    a.modulePath s = b.modulePath s ↔ Ident.MergePath a.fullName b.fullName := by
  have hname : ∀ m ∈ s.messages, m.modulePath s = m.fullName.map Ident.moduleName := by
    intro m hm
    have hfull : m.fullName = m.fullName.dropLast ++ [m.name] :=
      fullName_of_named (named_of_mem_places h (place_mem_places hm))
    rw [modulePath_eq h hm]
    conv_rhs => rw [hfull, List.map_append, List.map_singleton]
  rw [hname a ha, hname b hb, Ident.map_moduleName_eq_iff]

/-- A type and a module have one path if their scopes merge and the type is named as the module
is. -/
theorem path_eq_modulePath_iff (hplain : ∀ f ∈ files, f.source.decl.Plain) (h : link files = .ok s)
    {d : Place} {m : Message} (hd : d ∈ s.places) (hm : m ∈ s.messages) :
    d.path s = m.modulePath s ↔ d.MergeModule m := by
  rw [Place.path, modulePath_of_named (named_of_mem_places h hd), modulePath_eq h hm,
    ← List.concat_eq_append, ← List.concat_eq_append, List.concat_inj,
    Ident.map_moduleName_eq_iff, Ident.moduleName,
    Ident.escape_eq_iff (name_plain hplain h hd) (Ident.snake_plain _), Place.MergeModule]

/-- Keys differ exactly if no two elements are related, where being related is having the same
key. -/
theorem nodup_map_iff {α β : Type} {l : List α} {key : α → β} {R : α → α → Prop}
    (h : ∀ a ∈ l, ∀ b ∈ l, key a = key b ↔ R a b) :
    (l.map key).Nodup ↔ l.Pairwise fun a b => ¬ R a b := by
  rw [List.Nodup, List.pairwise_map]
  exact List.Pairwise.iff_of_mem fun {a b} ha hb => not_congr (h a ha b hb)

/-- **Where generated names collide.** In the code of a linked schema, the identifiers of the fields
of a struct differ, and so do those of the variants and aliases of an enum. The methods of a message
have different names if and only if no field that a method reads is named like the setter of
another. Types have different paths if and only if no two definitions merge, and so do the modules
for what is nested in messages if and only if the full names of no two of those messages merge. A
type and such a module are kept apart by nothing but their names: a message with a message nested in
it has a module of its own path if it is named in snake case. -/
theorem collisions_exact (hparsed : ∀ f ∈ files,
    SourceFile.ofText f.source.name f.source.path f.source.text = .ok f.source)
    (h : link files = .ok s) :
    (∀ m ∈ s.messages, ((m.fieldCodes s).map (·.ident)).Nodup ∧
      (((m.methods s).map (·.name)).Nodup ↔ ∀ f ∈ m.fields, ∀ g ∈ m.fields, f.hasGetter = true →
        g.hasSetter = true → Ident.snake f.name ≠ g.setter)) ∧
    (∀ x ∈ s.enums, ((x.variants ++ x.aliases).map EnumType.variantIdent).Nodup) ∧
    ((s.places.map (·.path s)).Nodup ↔ s.places.Pairwise fun a b => ¬ a.Merge b) ∧
    ((s.withModule.map (·.modulePath s)).Nodup ↔
      s.withModule.Pairwise fun a b => ¬ Ident.MergePath a.fullName b.fullName) ∧
    ∀ d ∈ s.places, ∀ m ∈ s.withModule, d.path s = m.modulePath s ↔ d.MergeModule m := by
  have hplain := plain_of_parsed hparsed
  refine ⟨fun m hm => ⟨?_, methodNames_nodup_iff h hm⟩, fun x hx => ?_, nodup_map_iff ?_,
    nodup_map_iff ?_, fun d hd m hm => ?_⟩
  · rw [MessageType.idents_fieldCodes]
    exact fieldIdents_nodup h hm
  · exact (x.variants_append_aliases.map _).nodup_iff.mpr (valueIdents_nodup h hx)
  · intro a ha b hb
    exact path_eq_iff hplain h ha hb
  · intro a ha b hb
    exact modulePath_eq_iff h (List.mem_of_mem_filter ha) (List.mem_of_mem_filter hb)
  · exact path_eq_modulePath_iff hplain h hd (List.mem_of_mem_filter hm)

/-- The names for the gauge differ, with a setter and a module among them. -/
theorem collisions_exact_gauge :
    link Gauge.files = .ok Gauge.schema ∧
      (∀ m ∈ Gauge.schema.messages, ((m.methods Gauge.schema).map (·.name)).Nodup) ∧
      (Gauge.schema.places.map (·.path Gauge.schema)).Nodup ∧
      (Gauge.schema.withModule.map (·.modulePath Gauge.schema)).Nodup ∧
      ∀ d ∈ Gauge.schema.places, ∀ m ∈ Gauge.schema.withModule,
        d.path Gauge.schema ≠ m.modulePath Gauge.schema := by
  obtain ⟨hmessages, _, hpaths, hmodules, hapart⟩ :=
    collisions_exact Gauge.files_parsed Gauge.link_files
  refine ⟨Gauge.link_files, fun m hm => (hmessages m hm).2.mpr ?_, hpaths.mpr ?_, hmodules.mpr ?_,
    fun d hd m hm => mt (hapart d hd m hm).mp ?_⟩
  · revert m hm
    decide +kernel
  · decide +kernel
  · decide +kernel
  · revert m hm
    revert d hd
    decide +kernel

end Linking

/-! ### An airport -/

namespace Airport

def text : String :=
  "message AirPort \x7b message Gate \x7b\x7d \x7d " ++
  "message air_port \x7b message Gate \x7b\x7d " ++
  "optional Kind kind=1; optional int32 set_kind=2; \x7d enum Kind \x7b CIVIL=0; \x7d"

def files : List LoadedFile :=
  [⟨⟨"airport.proto", none, text, (Grammar.read text).1.getD (.empty .proto2)⟩, true⟩]

def schema : Schema :=
  { files := [⟨"airport.proto", none, .proto2, [0, 2], [0], true⟩]
    messages :=
      [⟨"AirPort", ["AirPort"], 0, none, [], [1], []⟩,
        ⟨"Gate", ["AirPort", "Gate"], 0, some 0, [], [], []⟩,
        ⟨"air_port", ["air_port"], 0, none,
          [⟨"kind", 1, .optional, .enum 0, false, none, false⟩,
            ⟨"set_kind", 2, .optional, .scalar .int32, false, none, false⟩], [3], []⟩,
        ⟨"Gate", ["air_port", "Gate"], 0, some 2, [], [], []⟩]
    enums := [⟨"Kind", ["Kind"], 0, none, [⟨"CIVIL", 0⟩]⟩] }

/-- The text has no faults and is linked. Both are decided at once, so that it is read once. -/
theorem read_link_text :
    (Grammar.read text).2 = [] ∧ (Linking.link files).toOption = some schema := by
  decide +kernel

theorem files_parsed : ∀ f ∈ files,
    SourceFile.ofText f.source.name f.source.path f.source.text = .ok f.source :=
  SourceFile.forall_mem_ofText read_link_text.1

theorem link_files : Linking.link files = .ok schema :=
  Linking.link_of_toOption read_link_text.2

end Airport

namespace Linking

/-- The gates of two airports have one path, through two modules with one name, which is that of the
second airport as well. A method that sets the kind has the name of one that reads a field. -/
theorem exists_collision :
    ∃ files s, (∀ f ∈ files,
        SourceFile.ofText f.source.name f.source.path f.source.text = .ok f.source) ∧
      link files = .ok s ∧ ¬ (s.places.map (·.path s)).Nodup ∧
      ¬ (s.withModule.map (·.modulePath s)).Nodup ∧
      (∃ d ∈ s.places, ∃ m ∈ s.withModule, d.path s = m.modulePath s) ∧
      ∃ m ∈ s.messages, ¬ ((m.methods s).map (·.name)).Nodup := by
  refine ⟨Airport.files, Airport.schema, Airport.files_parsed, Airport.link_files, ?_, ?_, ?_, ?_⟩
  all_goals decide +kernel

end Linking

end Protobuf

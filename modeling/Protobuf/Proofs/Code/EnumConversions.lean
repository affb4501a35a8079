import Protobuf.Proofs.Code.EnumTables
import Protobuf.Proofs.Schema.Kept

/-! The conversions of an enum type.

Five tables are written for an enum: numbers and names of its variants, constants for its aliases,
and a match on names and one on numbers. They are read back from the code of the type, and agree
with the values of the enum and with each other (`conversions_agree`), whatever numbers the values
share. What the tables say of a value comes from one fact: a single variant has its number, and that
is the one whose identifier is written for it (`toNumber?_eq_some_iff`). -/
namespace Protobuf

namespace EnumType

/-- The tables of an enum type agree with the values of the enum, and with each other. -/
structure Tables.Agrees (t : Tables) (e : Enum) : Prop where
  /-- The variants are the values that are first with their numbers, in the declared order. -/
  variants : t.variants = (e.values.filter e.isFirst).map fun v => (variantIdent v, v.number.toInt)
  numbers : (t.variants.map (·.2)).Nodup
  idents : (t.variants.map (·.1) ++ t.constants.map (·.1)).Nodup
  /-- The other values are constants, each for the variant with its number. -/
  constants : ∀ ident x, (ident, x) ∈ t.constants ↔
    ∃ v ∈ e.values, e.isFirst v = false ∧ variantIdent v = ident ∧
      t.toNumber? x = some v.number.toInt
  /-- A number is converted if and only if a value has it, and the variant is converted back. -/
  ofNumber : ∀ number, (t.ofNumber? number).isSome = true ↔ ∃ v ∈ e.values, v.number = number
  toNumber_ofNumber : ∀ number x, t.ofNumber? number = some x → t.toNumber? x = some number.toInt
  /-- The name of a value is converted to the variant with its number, and nothing else is. -/
  ofName : ∀ v ∈ e.values, ∃ x, t.ofName? v.name = some x ∧ t.toNumber? x = some v.number.toInt
  ofName_none : ∀ name, name ∉ e.values.map (·.name) → t.ofName? name = none
  ofName_toName : ∀ x ∈ t.variants.map (·.1), ∃ name, t.toName? x = some name ∧
    t.ofName? name = some x
  /-- The fields of a record are converted in the same way. -/
  ofNumber_eq : ∀ number, t.ofNumber? number = (e.ofNumber? number).map variantIdent
  ofName_eq : ∀ name, t.ofName? name = (e.ofName? name).map variantIdent

/-! ### Conversions from numbers and names -/

section
variable {e : Enum}

/-- Numbers are converted as they are for the fields of a record. -/
theorem ofNumber?_eq_map (number : Int32) :
    (tables e).ofNumber? number = (e.ofNumber? number).map variantIdent := by
  have hkey (v : EnumValue) : (v.number.toInt == number.toInt) = (v.number == number) := by
    rw [Bool.eq_iff_iff, beq_iff_eq, beq_iff_eq, Int32.toInt_inj]
  have hfind : (tables e).ofNumber? number = (e.ofNumber? number).map (aliasTarget e) := by
    rw [Tables.ofNumber?, tables, List.find?_map, Option.map_map]
    simp only [Function.comp_def, hkey, Enum.ofNumber?]
  rw [hfind]
  refine Option.map_congr fun w hw => ?_
  obtain ⟨-, rfl⟩ := Enum.ofNumber?_eq_some hw
  exact aliasTarget_eq hw

/-- Names are converted as they are for the fields of a record. -/
theorem ofName?_eq_map (name : String) :
    (tables e).ofName? name = (e.ofName? name).map variantIdent := by
  have hfound : (tables e).ofName? name =
      ((e.variants ++ e.aliases).find? (·.name == name)).map (aliasTarget e) := by
    rw [Tables.ofName?, tables, List.find?_map, Option.map_map]
    simp only [Function.comp_def]
  rw [hfound, Enum.ofName?]
  cases hfind : (e.variants ++ e.aliases).find? (·.name == name) with
  | none => simp
  | some v =>
    have hv := e.variants_append_aliases.mem_iff.mp (List.mem_of_find?_eq_some hfind)
    obtain ⟨w, hw, -⟩ := Enum.exists_ofNumber? hv
    simp only [Option.map_some, hw, aliasTarget_eq hw]

theorem ofName?_eq_none {name : String} (h : name ∉ e.values.map (·.name)) :
    (tables e).ofName? name = none := by
  have hnames : name ∉ (e.variants ++ e.aliases).map (·.name) := fun hmem =>
    h ((e.variants_append_aliases.map _).mem_iff.mp hmem)
  rw [ofName?_eq_map, Enum.ofName?, Linking.find?_of_disjoint hnames]
  rfl

end

/-! ### Conversions of variants -/

section
variable {e : Enum} {v : EnumValue} (hidents : (e.values.map variantIdent).Nodup)
include hidents

theorem idents_nodup : ((e.variants ++ e.aliases).map variantIdent).Nodup :=
  (e.variants_append_aliases.map _).nodup_iff.mpr hidents

/-- A table with one entry for each variant has the entry of a variant under its identifier. -/
theorem find?_variantIdent {β : Type} (entry : EnumValue → β) (hv : v ∈ e.variants) :
    ((e.variants.map fun v => (variantIdent v, entry v)).find? (·.1 == variantIdent v)).map (·.2) =
      some (entry v) := by
  have hnodup := idents_nodup hidents
  rw [List.map_append, List.nodup_append] at hnodup
  rw [List.find?_map, Option.map_map]
  exact congrArg (Option.map entry) (Linking.find?_of_nodup hnodup.1 hv)

theorem toNumber?_variantIdent (hv : v ∈ e.variants) :
    (tables e).toNumber? (variantIdent v) = some v.number.toInt :=
  find?_variantIdent hidents (·.number.toInt) hv

theorem toName?_variantIdent (hv : v ∈ e.variants) :
    (tables e).toName? (variantIdent v) = some v.name :=
  find?_variantIdent hidents (·.name) hv

/-- **The variant with the number of a value is its alias target.** -/
theorem toNumber?_eq_some_iff (hv : v ∈ e.values) {x : String} :
    (tables e).toNumber? x = some v.number.toInt ↔ x = aliasTarget e v := by
  obtain ⟨w, hw, hmem, hnumber⟩ := Enum.exists_ofNumber? hv
  rw [aliasTarget_eq hw]
  constructor
  · intro hx
    obtain ⟨p, hp, hsame⟩ := Option.map_eq_some_iff.mp hx
    obtain ⟨u, hu, rfl⟩ := List.mem_map.mp (List.mem_of_find?_eq_some hp)
    have hident : variantIdent u = x := by simpa using List.find?_some hp
    have hfound := Enum.ofNumber?_number (.of_map _ hidents) hu
    rw [Int32.toInt_inj.mp hsame, hw] at hfound
    rw [← hident, Option.some.inj hfound]
  · rintro rfl
    rw [toNumber?_variantIdent hidents hmem, hnumber]

theorem ofName?_value (hv : v ∈ e.values) :
    (tables e).ofName? v.name = some (aliasTarget e v) := by
  have hnames : (e.values.map (·.name)).Nodup := by
    refine List.pairwise_map.mpr ((List.pairwise_map.mp hidents).imp fun hne hname => hne ?_)
    rw [variantIdent, variantIdent, hname]
  obtain ⟨w, hw, -⟩ := Enum.exists_ofNumber? hv
  rw [ofName?_eq_map, Enum.ofName?_name hnames hv, hw, aliasTarget_eq hw]
  rfl

/-- **The tables agree with the enum**, if its values have different identifiers. -/
theorem tables_agree : (tables e).Agrees e where
  variants := by
    rw [← Enum.variants_eq (.of_map _ hidents)]
    rfl
  numbers := by
    have hnumbers := (Enum.numbers_nodup (.of_map _ hidents)).map fun _ _ => Int32.toInt_inj.mp
    simpa [tables, Function.comp_def] using hnumbers
  idents := by
    simpa [tables, Function.comp_def] using idents_nodup hidents
  constants ident x := by
    have haliases {v : EnumValue} := Enum.mem_aliases_iff (v := v) (.of_map _ hidents)
    constructor
    · intro hmem
      obtain ⟨v, hv, hpair⟩ := List.mem_map.mp hmem
      obtain ⟨rfl, rfl⟩ := Prod.mk.inj hpair
      obtain ⟨hvalue, hfirst⟩ := haliases.mp hv
      exact ⟨v, hvalue, hfirst, rfl, (toNumber?_eq_some_iff hidents hvalue).mpr rfl⟩
    · rintro ⟨v, hv, hfirst, rfl, hx⟩
      rw [(toNumber?_eq_some_iff hidents hv).mp hx]
      exact List.mem_map.mpr ⟨v, haliases.mpr ⟨hv, hfirst⟩, rfl⟩
  ofNumber number := by
    rw [ofNumber?_eq_map, Option.isSome_map, Enum.ofNumber?_isSome_iff]
  toNumber_ofNumber number x hx := by
    rw [ofNumber?_eq_map] at hx
    obtain ⟨w, hw, rfl⟩ := Option.map_eq_some_iff.mp hx
    obtain ⟨hmem, rfl⟩ := Enum.ofNumber?_eq_some hw
    exact toNumber?_variantIdent hidents hmem
  ofName v hv := ⟨_, ofName?_value hidents hv, (toNumber?_eq_some_iff hidents hv).mpr rfl⟩
  ofName_none _ hname := ofName?_eq_none hname
  ofName_toName x hx := by
    obtain ⟨p, hp, rfl⟩ := List.mem_map.mp hx
    obtain ⟨v, hv, rfl⟩ := List.mem_map.mp hp
    dsimp only
    refine ⟨v.name, toName?_variantIdent hidents hv, ?_⟩
    rw [ofName?_value hidents (Enum.mem_values_of_mem_variants hv), aliasTarget_variant hidents hv]
  ofNumber_eq := ofNumber?_eq_map
  ofName_eq := ofName?_eq_map

end

end EnumType

/-! ### Names of fields and values -/

namespace Decl

mutual

theorem Message.plain_tree : ∀ {m : Message}, m.Plain →
    (∀ d ∈ m.tree, d.Plain) ∧ ∀ e ∈ m.enumTree, e.Plain
  | ⟨_, _, _, _, _, _, _⟩, .message hname hfields hmessages henums => by
    obtain ⟨htrees, henumTrees⟩ := Message.plain_trees hmessages
    have hown := Message.Plain.message hname hfields hmessages henums
    exact ⟨List.forall_mem_cons.mpr ⟨hown, htrees⟩, List.forall_mem_append.mpr ⟨henumTrees, henums⟩⟩

theorem Message.plain_trees : ∀ {messages : List Message}, (∀ m ∈ messages, m.Plain) →
    (∀ d ∈ Message.trees messages, d.Plain) ∧ ∀ e ∈ Message.enumTrees messages, e.Plain
  | [], _ => ⟨nofun, nofun⟩
  | _ :: _, hplain => by
    obtain ⟨hm, hrest⟩ := List.forall_mem_cons.mp hplain
    obtain ⟨hfirst, hfirstEnums⟩ := Message.plain_tree hm
    obtain ⟨hothers, hotherEnums⟩ := Message.plain_trees hrest
    exact ⟨List.forall_mem_append.mpr ⟨hfirst, hothers⟩,
      List.forall_mem_append.mpr ⟨hfirstEnums, hotherEnums⟩⟩

end

theorem File.Plain.allMessages {f : File} (h : f.Plain) : ∀ m ∈ f.allMessages, m.Plain :=
  (Message.plain_trees h.messages).1

theorem File.Plain.allEnums {f : File} (h : f.Plain) : ∀ e ∈ f.allEnums, e.Plain :=
  List.forall_mem_append.mpr ⟨(Message.plain_trees h.messages).2, h.enums⟩

end Decl

namespace Linking
variable {files : List LoadedFile} {s : Schema} {e : Enum}

/-- The fields of a message have names as they are read from the source. -/
theorem fieldNames_plain (hplain : ∀ f ∈ files, f.source.decl.Plain) (h : link files = .ok s)
    {m : Message} (hm : m ∈ s.messages) : ∀ f ∈ m.fields, IsPlain f.name := by
  intro f hf
  obtain ⟨d, hd, -, hkeeps⟩ := exists_of_forall₂_mem (messages_kept h).flip hm
  obtain ⟨file, hfile, hd⟩ := List.mem_flatMap.mp hd
  obtain ⟨-, hfields, -, -⟩ := (hplain file hfile).allMessages d hd
  have hpair := List.mem_map_of_mem (f := fun f : Field => (f.name, (f.number : Int))) hf
  rw [hkeeps.fields] at hpair
  obtain ⟨g, hg, hsame⟩ := List.mem_map.mp hpair
  rw [← (Prod.mk.inj hsame).1]
  exact hfields g hg

/-- The values of an enum have names as they are read from the source. -/
theorem valueNames_plain (hplain : ∀ f ∈ files, f.source.decl.Plain) (h : link files = .ok s)
    (he : e ∈ s.enums) : ∀ v ∈ e.values, IsPlain v.name := by
  intro v hv
  obtain ⟨⟨_, d⟩, hd, -, hkeeps⟩ := exists_of_forall₂_mem (enums_kept h).flip he
  obtain ⟨f, hf, hd⟩ := List.mem_flatMap.mp hd
  obtain ⟨_, hd, hpair⟩ := List.mem_map.mp hd
  cases hpair
  have hpair := List.mem_map_of_mem (f := fun v : EnumValue => (v.name, v.number.toInt)) hv
  rw [hkeeps.values] at hpair
  obtain ⟨w, hw, hsame⟩ := List.mem_map.mp hpair
  rw [← (Prod.mk.inj hsame).1]
  exact ((hplain f hf).allEnums d hd).values w hw

/-- **Enums convert consistently.** The code of an enum of a schema reads as tables that agree with
the values of the enum and with each other, with or without aliases. Names are taken as given: it is
not asked here whether an identifier is legal (`Ident.Legal`), nor whether a definition named `i32`
or `str` hides the type of that name which the conversions refer to. -/
theorem conversions_agree (hparsed : ∀ f ∈ files,
    SourceFile.ofText f.source.name f.source.path f.source.text = .ok f.source)
    (h : link files = .ok s) (he : e ∈ s.enums) :
    ∃ t, EnumType.Tables.read (Ident.escape e.name) (EnumType.code e) = some t ∧ t.Agrees e := by
  have hplain := plain_of_parsed hparsed
  have hidents := valueIdents_nodup h he
  have hname : IsPlain e.name :=
    name_plain hplain h (List.mem_append_right _ (List.mem_map_of_mem (f := Enum.place) he))
  exact ⟨_, EnumType.read_code hidents hname (valueNames_plain hplain h he),
    EnumType.tables_agree hidents⟩

end Linking

/-! ### Tides with two names for each number -/

namespace Tide

def text : String :=
  "enum Tide \x7b option allow_alias = true; LOW=0; EBB=0; HIGH=-1; FLOOD=-1; \x7d"

def files : List LoadedFile :=
  [⟨⟨"tide.proto", none, text, (Grammar.read text).1.getD (.empty .proto2)⟩, true⟩]

def tide : Enum :=
  ⟨"Tide", ["Tide"], 0, none, [⟨"LOW", 0⟩, ⟨"EBB", 0⟩, ⟨"HIGH", -1⟩, ⟨"FLOOD", -1⟩]⟩

def schema : Schema :=
  { files := [⟨"tide.proto", none, .proto2, [], [0], true⟩]
    messages := []
    enums := [tide] }

/-- The text has no faults and is linked. Both are decided at once, so that it is read once. -/
theorem read_link_text :
    (Grammar.read text).2 = [] ∧ (Linking.link files).toOption = some schema := by
  decide +kernel

theorem files_parsed : ∀ f ∈ files,
    SourceFile.ofText f.source.name f.source.path f.source.text = .ok f.source :=
  SourceFile.forall_mem_ofText read_link_text.1

theorem link_files : Linking.link files = .ok schema :=
  Linking.link_of_toOption read_link_text.2

end Tide

namespace Linking

/-- A flood is a high tide: both names lead to the variant with their number, and no other text
leads to one. -/
theorem conversions_agree_tide :
    link Tide.files = .ok Tide.schema ∧
      ∃ t, EnumType.Tables.read "Tide" (EnumType.code Tide.tide) = some t ∧
        t.variants = [("Low", 0), ("High", -1)] ∧ ("Flood", "High") ∈ t.constants ∧
        t.ofName? "FLOOD" = some "High" ∧ t.ofName? "Flood" = none ∧
        (t.ofNumber? 1).isSome = false := by
  obtain ⟨t, hread, hagrees⟩ :=
    conversions_agree Tide.files_parsed Tide.link_files (e := Tide.tide) List.mem_cons_self
  have hvariants : t.variants = [("Low", 0), ("High", -1)] :=
    hagrees.variants.trans (by decide)
  have hhigh : t.toNumber? "High" = some (-1) := by
    rw [EnumType.Tables.toNumber?, hvariants]
    rfl
  refine ⟨Tide.link_files, t, hread, hvariants, ?_, ?_, hagrees.ofName_none _ (by decide), ?_⟩
  · exact (hagrees.constants _ _).mpr
      ⟨⟨"FLOOD", -1⟩, by decide, by decide, by decide, hhigh⟩
  · have honly : ∀ p ∈ [("Low", (0 : Int)), ("High", -1)], p.2 = -1 → p.1 = "High" := by decide
    obtain ⟨x, hx, hnumber⟩ := hagrees.ofName ⟨"FLOOD", -1⟩ (by decide)
    obtain ⟨p, hp, hsame⟩ := Option.map_eq_some_iff.mp hnumber
    have hident : p.1 = x := by simpa using List.find?_some hp
    rw [hx, ← hident, honly p (hvariants ▸ List.mem_of_find?_eq_some hp) hsame]
  · exact Bool.eq_false_iff.mpr fun hsome =>
      absurd ((hagrees.ofNumber 1).mp hsome) (by decide)

end Linking

end Protobuf

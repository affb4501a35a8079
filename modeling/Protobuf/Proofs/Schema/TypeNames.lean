import Protobuf.Proofs.Schema.Boxing
import Protobuf.Proofs.Schema.Visible

/-! What type names stand for.

A type name is looked up from inside a message. The scopes around it are tried from the innermost
one out, and the first one that has the first part of the name decides; only a package that lacks
the rest is passed over. `Selects` says so without the lookup, in terms of what the files declare,
and `StandsFor` adds that the name found must be that of a message or enum in a visible file.

If no names clash, linking gives a field the type that its name stands for, and records a flaw if
there is none (`types_linked`). With a leading dot, the name that was found leads to the same
definition from everywhere. -/
namespace Protobuf

/-! ### The registry has what is declared -/

namespace Registry
variable {fileName : Nat → String} {r : Registry} {names : List NameEntry} {name : QualifiedName}
  {entry first : NameEntry}

theorem name_of_get? (h : r.get? name = some entry) : entry.name = name := by
  simpa using List.find?_some h

/-- Entering names leaves those that are there as they are. -/
theorem get?_enter_of_get? (h : r.get? name = some first) :
    (enter fileName r names).1.get? name = some first := by
  induction names generalizing r with
  | nil => exact h
  | cons next rest ih =>
    rw [enter]
    split
    · refine ih ?_
      rw [get?, List.find?_append]
      rw [get?] at h
      rw [h, Option.some_or]
    · dsimp only
      split <;> exact ih h

/-- A name that was entered without a clash is found, as what it was entered for. -/
theorem exists_get?_enter (h : (enter fileName r names).2 = []) (hentry : entry ∈ names) :
    ∃ first, (enter fileName r names).1.get? entry.name = some first ∧
      (first = entry ∨ first.definition = .package ∧ entry.definition = .package) := by
  induction names generalizing r with
  | nil => cases hentry
  | cons next rest ih =>
    cases hget : r.get? next.name with
    | none =>
      simp only [enter, hget] at h ⊢
      rcases List.mem_cons.mp hentry with rfl | hrest
      · refine ⟨entry, get?_enter_of_get? ?_, .inl rfl⟩
        rw [get?] at hget
        simp [get?, List.find?_append, hget]
      · exact ih h hrest
    | some first =>
      simp only [enter, hget] at h ⊢
      split at h
      · cases h
      · rename_i hclash
        rcases List.mem_cons.mp hentry with rfl | hrest
        · refine ⟨first, get?_enter_of_get? hget, .inr ?_⟩
          unfold clash at hclash
          split at hclash
          · assumption
          · split at hclash <;> cases hclash
        · exact ih h hrest

end Registry

namespace Linking
variable {files : List LoadedFile} {name scope : QualifiedName} {d : Definition} {file : Nat}

/-- A file declares this name, for this definition. -/
def Declares (files : List LoadedFile) (name : QualifiedName) (d : Definition) (file : Nat) :
    Prop :=
  ∃ entry ∈ (Outline.ofFiles files).1.names,
    entry.name = name ∧ entry.definition = d ∧ entry.file = file

/-- The names that files declare do not clash. -/
def ClashFree (files : List LoadedFile) : Prop :=
  (Registry.enter (fileName files) [] (Outline.ofFiles files).1.names).2 = []

instance : Decidable (ClashFree files) :=
  inferInstanceAs (Decidable (_ = []))

theorem declares_of_get? {entry : NameEntry} (h : (registryOf files).get? name = some entry) :
    Declares files name entry.definition entry.file := by
  have hentry := (Registry.mem_of_enter (Registry.mem_of_get? h)).resolve_left List.not_mem_nil
  exact ⟨entry, hentry, Registry.name_of_get? h, rfl, rfl⟩

theorem get?_of_declares (hfree : ClashFree files) (h : Declares files name d file) :
    ∃ entry, (registryOf files).get? name = some entry ∧ entry.definition = d ∧
      (d ≠ .package → entry.file = file) := by
  obtain ⟨entry, hentry, rfl, rfl, rfl⟩ := h
  obtain ⟨first, hfirst, rfl | ⟨hfirstPackage, hpackage⟩⟩ :=
    Registry.exists_get?_enter hfree hentry
  · exact ⟨first, hfirst, rfl, fun _ => rfl⟩
  · exact ⟨first, hfirst, hfirstPackage.trans hpackage.symm, fun hne => absurd hpackage hne⟩

theorem isSome_get?_iff (hfree : ClashFree files) :
    ((registryOf files).get? name).isSome = true ↔ ∃ d file, Declares files name d file := by
  rw [Option.isSome_iff_exists]
  constructor
  · intro h
    obtain ⟨entry, hentry⟩ := h
    exact ⟨_, _, declares_of_get? hentry⟩
  · intro h
    obtain ⟨d, file, hdeclares⟩ := h
    obtain ⟨entry, hentry, _⟩ := get?_of_declares hfree hdeclares
    exact ⟨entry, hentry⟩

theorem isPackage_iff (hfree : ClashFree files) {entry : NameEntry}
    (h : (registryOf files).get? name = some entry) :
    entry.definition = .package ↔ ∃ file, Declares files name .package file := by
  constructor
  · intro hpackage
    exact ⟨entry.file, hpackage ▸ declares_of_get? h⟩
  · intro hdeclares
    obtain ⟨file, hdeclares⟩ := hdeclares
    obtain ⟨first, hfirst, hpackage, _⟩ := get?_of_declares hfree hdeclares
    rw [h] at hfirst
    cases hfirst
    exact hpackage

/-! ### The rule -/

/-- A scope has the first part of a name, and either nothing follows, or the rest is there too, or
the first part is no package. -/
def Decides (files : List LoadedFile) (first : String) (rest : List String)
    (scope : QualifiedName) : Prop :=
  (∃ d file, Declares files (scope ++ [first]) d file) ∧
    (rest = [] ∨ (∃ d file, Declares files (scope ++ first :: rest) d file) ∨
      ¬ ∃ file, Declares files (scope ++ [first]) .package file)

/-- The full name that a type name means inside `scope`: with a leading dot itself, and otherwise
itself in the innermost of the scopes around that decides. -/
inductive Selects (files : List LoadedFile) (scope : QualifiedName) (type : Decl.TypeRef) :
    QualifiedName → Prop where
  | absolute : type.leadingDot.isSome = true → Selects files scope type type.name.names
  | relative {around : QualifiedName} : type.leadingDot.isSome = false → around <+: scope →
      Decides files type.name.first.value (type.name.others.map (·.value)) around →
      (∀ inner, inner <+: scope → around.length < inner.length →
        ¬ Decides files type.name.first.value (type.name.others.map (·.value)) inner) →
      Selects files scope type (around ++ type.name.names)

/-- A type name, used inside `scope` in a file, stands for a message or enum. -/
def StandsFor (files : List LoadedFile) (file : Nat) (scope : QualifiedName) (type : Decl.TypeRef)
    (t : FieldType) : Prop :=
  ∃ full d owner, Selects files scope type full ∧ Declares files full d owner ∧
    typeOf d = some t ∧ owner ∈ Visibility.visible files file

theorem Selects.unique {type : Decl.TypeRef} {a b : QualifiedName}
    (ha : Selects files scope type a) (hb : Selects files scope type b) : a = b := by
  cases ha with
  | absolute hdot =>
    cases hb with
    | absolute => rfl
    | relative hnot => simp [hdot] at hnot
  | @relative aroundA hdot hinA hdecidesA hlastA =>
    cases hb with
    | absolute hnot => simp [hdot] at hnot
    | @relative aroundB _ hinB hdecidesB hlastB =>
      have hle := Nat.le_of_not_lt fun hlt => hlastA aroundB hinB hlt hdecidesB
      have hge := Nat.le_of_not_lt fun hlt => hlastB aroundA hinA hlt hdecidesA
      have hsame : aroundA = aroundB :=
        (List.prefix_of_prefix_length_le hinA hinB hge).eq_of_length
          (Nat.le_antisymm hge hle)
      rw [hsame]

/-- With a leading dot, the selected name stands for the same from everywhere. -/
theorem standsFor_absolute_iff {type absolute : Decl.TypeRef} {full : QualifiedName}
    (hselects : Selects files scope type full) (hdot : absolute.leadingDot.isSome = true)
    (hname : absolute.name.names = full) (elsewhere : QualifiedName) (t : FieldType) :
    StandsFor files file elsewhere absolute t ↔ StandsFor files file scope type t := by
  have habsolute : Selects files elsewhere absolute full := hname ▸ .absolute hdot
  constructor
  · intro h
    obtain ⟨full', d, owner, hselects', hrest⟩ := h
    rw [hselects'.unique habsolute] at hrest
    exact ⟨full, d, owner, hselects, hrest⟩
  · intro h
    obtain ⟨full', d, owner, hselects', hrest⟩ := h
    rw [hselects'.unique hselects] at hrest
    exact ⟨full, d, owner, habsolute, hrest⟩

end Linking

/-! ### The lookup follows the rule -/

namespace Registry
variable {r : Registry} {scope around : QualifiedName}

/-- Whether the search for a name ends in a scope. -/
def decides (r : Registry) (first : String) (rest : List String) (scope : QualifiedName) : Bool :=
  match r.get? (scope ++ [first]) with
  | none => false
  | some entry => (r.get? (scope ++ first :: rest)).isSome || entry.definition != .package

theorem findIn_eq (r : Registry) (first : String) (rest : List String)
    (scopes : List QualifiedName) :
    r.findIn first rest scopes =
      (scopes.find? (r.decides first rest)).bind fun scope => r.get? (scope ++ first :: rest) := by
  induction scopes with
  | nil => rfl
  | cons scope outer ih =>
    rw [findIn, List.find?_cons, decides]
    cases hfirst : r.get? (scope ++ [first]) with
    | none => exact ih
    | some entry =>
      cases hfull : r.get? (scope ++ first :: rest) with
      | some found => simp [hfull]
      | none =>
        by_cases hpackage : entry.definition = .package
        · simp [hpackage, ih]
        · have hother : (entry.definition != .package) = true := bne_iff_ne.mpr hpackage
          simp [hpackage, hother, hfull]

theorem mem_scopes : around ∈ scopes scope ↔ around <+: scope := by
  simp only [scopes, List.mem_map, List.mem_reverse, List.mem_range]
  constructor
  · intro h
    obtain ⟨n, _, rfl⟩ := h
    exact List.take_prefix n scope
  · intro h
    exact ⟨around.length, Nat.lt_succ_of_le h.length_le, (List.prefix_iff_eq_take.mp h).symm⟩

/-- The scopes come innermost first. -/
theorem scopes_pairwise (scope : QualifiedName) :
    (scopes scope).Pairwise fun inner outer => outer.length < inner.length := by
  simp only [scopes, List.pairwise_map, List.pairwise_reverse]
  refine List.pairwise_lt_range.imp_of_mem ?_
  intro a b _ hb hlt
  have hb := List.mem_range.mp hb
  simp only [List.length_take]
  omega

/-- The first scope found is the innermost one. -/
theorem find?_scopes_eq_some_iff {p : QualifiedName → Bool} :
    (scopes scope).find? p = some around ↔ around <+: scope ∧ p around = true ∧
      ∀ inner, inner <+: scope → around.length < inner.length → p inner = false := by
  have hordered := scopes_pairwise scope
  rw [List.find?_eq_some_iff_append]
  constructor
  · intro h
    obtain ⟨hp, before, after, hsplit, hbefore⟩ := h
    refine ⟨mem_scopes.mp (by simp [hsplit]), hp, fun inner hinner hlt => ?_⟩
    have hmem := mem_scopes.mpr hinner
    rw [hsplit] at hmem hordered
    -- a longer one can only come before
    rcases List.mem_append.mp hmem with hmem | hmem
    · simpa using hbefore inner hmem
    · rcases List.mem_cons.mp hmem with rfl | hmem
      · exact absurd hlt (Nat.lt_irrefl _)
      · have hshorter := (List.pairwise_cons.mp (List.pairwise_append.mp hordered).2.1).1 inner hmem
        omega
  · intro h
    obtain ⟨hpre, hp, hlonger⟩ := h
    obtain ⟨before, after, hsplit⟩ := List.append_of_mem (mem_scopes.mpr hpre)
    refine ⟨hp, before, after, hsplit, fun inner hinner => ?_⟩
    have hmem : inner ∈ scopes scope := by simp [hsplit, hinner]
    rw [hsplit] at hordered
    have hlt := (List.pairwise_append.mp hordered).2.2 inner hinner around List.mem_cons_self
    simpa using hlonger inner (mem_scopes.mp hmem) hlt

end Registry

namespace Linking
variable {files : List LoadedFile} {scope : QualifiedName} {file : Nat}

theorem decides_iff (hfree : ClashFree files) (first : String) (rest : List String)
    (scope : QualifiedName) :
    (registryOf files).decides first rest scope = true ↔ Decides files first rest scope := by
  rw [Decides, ← isSome_get?_iff hfree, ← isSome_get?_iff hfree, Registry.decides]
  cases hfirst : (registryOf files).get? (scope ++ [first]) with
  | none => simp
  | some entry =>
    rw [← isPackage_iff hfree hfirst]
    cases rest with
    | nil => simp [hfirst]
    | cons next others => simp

theorem resolve_eq_some_iff (hfree : ClashFree files) {type : Decl.TypeRef} {entry : NameEntry} :
    (registryOf files).resolve scope type = some entry ↔
      ∃ full, Selects files scope type full ∧ (registryOf files).get? full = some entry := by
  unfold Registry.resolve
  cases hdot : type.leadingDot.isSome with
  | true =>
    rw [if_pos rfl]
    constructor
    · exact fun h => ⟨_, .absolute hdot, h⟩
    · intro h
      obtain ⟨full, hselects, hget⟩ := h
      rwa [hselects.unique (.absolute hdot)] at hget
  | false =>
    rw [if_neg Bool.false_ne_true, Registry.findIn_eq, Option.bind_eq_some_iff]
    simp only [Registry.find?_scopes_eq_some_iff, ← Bool.not_eq_true, decides_iff hfree]
    constructor
    · intro h
      obtain ⟨around, ⟨hpre, hdecides, hinner⟩, hget⟩ := h
      exact ⟨_, .relative hdot hpre hdecides hinner, hget⟩
    · intro h
      obtain ⟨full, hselects, hget⟩ := h
      cases hselects with
      | absolute hnot => simp [hdot] at hnot
      | @relative around _ hpre hdecides hinner =>
        exact ⟨around, ⟨hpre, hdecides, hinner⟩, hget⟩

/-! ### Fields -/

/-- What the fields of a file are linked against. -/
def contextOf (files : List LoadedFile) (file : Nat) : Context :=
  ⟨registryOf files, (enumsOf files).map (·.2.value), fileName files,
    (Visibility.table files).getD file []⟩

theorem refusal_eq_none_iff {ctx : Context} {entry : NameEntry} :
    refusal ctx entry = none ↔
      (∃ t, typeOf entry.definition = some t) ∧ entry.file ∈ ctx.visible := by
  unfold refusal typeOf
  cases entry.definition <;> simp

theorem standsFor_iff (hfree : ClashFree files) {type : Decl.TypeRef} {t : FieldType} :
    StandsFor files file scope type t ↔ ∃ entry,
      (registryOf files).resolve scope type = some entry ∧
        refusal (contextOf files file) entry = none ∧ typeOf entry.definition = some t := by
  constructor
  · intro h
    obtain ⟨full, d, owner, hselects, hdeclares, htype, hvisible⟩ := h
    obtain ⟨entry, hget, rfl, howner⟩ := get?_of_declares hfree hdeclares
    have hne : entry.definition ≠ .package := fun hpackage => by simp [hpackage, typeOf] at htype
    rw [← howner hne] at hvisible
    exact ⟨entry, (resolve_eq_some_iff hfree).mpr ⟨full, hselects, hget⟩,
      refusal_eq_none_iff.mpr ⟨⟨t, htype⟩, hvisible⟩, htype⟩
  · intro h
    obtain ⟨entry, hresolve, hrefusal, htype⟩ := h
    obtain ⟨full, hselects, hget⟩ := (resolve_eq_some_iff hfree).mp hresolve
    exact ⟨full, _, _, hselects, declares_of_get? hget, htype,
      (refusal_eq_none_iff.mp hrefusal).2⟩

/-- A field gets the type that its name stands for. -/
theorem fieldType_of_standsFor (hfree : ClashFree files) {f : Decl.Field} {type : Decl.TypeRef}
    (hf : f.type = .named type) {t : FieldType} (h : StandsFor files file scope type t) :
    fieldType (contextOf files file) scope f = ⟨some t, []⟩ := by
  obtain ⟨entry, hresolve, hrefusal, htype⟩ := (standsFor_iff hfree).mp h
  have hresolve : (contextOf files file).registry.resolve scope type = some entry := hresolve
  simp only [fieldType, hf, namedType, hresolve, hrefusal, htype]

/-- A field whose type name stands for nothing has a flaw that says so. -/
theorem fieldType_of_not_standsFor (hfree : ClashFree files) {f : Decl.Field}
    {type : Decl.TypeRef} (hf : f.type = .named type)
    (h : ¬ ∃ t, StandsFor files file scope type t) :
    ∃ hint, fieldType (contextOf files file) scope f =
      ⟨none, [.unresolvedType f.name.value type.text f.typeSpan hint]⟩ := by
  simp only [fieldType, hf, namedType]
  cases hresolve : (contextOf files file).registry.resolve scope type with
  | none => exact ⟨none, rfl⟩
  | some entry =>
    cases hrefusal : refusal (contextOf files file) entry with
    | some hint => exact ⟨some hint, by simp [hrefusal]⟩
    | none =>
      obtain ⟨t, htype⟩ := (refusal_eq_none_iff.mp hrefusal).1
      exact absurd ⟨t, (standsFor_iff hfree).mpr ⟨entry, hresolve, hrefusal, htype⟩⟩ h

theorem fieldType_eq_some_iff (hfree : ClashFree files) {f : Decl.Field} {type : Decl.TypeRef}
    (hf : f.type = .named type) {t : FieldType} :
    (fieldType (contextOf files file) scope f).value = some t ↔
      StandsFor files file scope type t := by
  constructor
  · intro hvalue
    by_cases h : ∃ t', StandsFor files file scope type t'
    · obtain ⟨t', h⟩ := h
      rw [fieldType_of_standsFor hfree hf h] at hvalue
      cases hvalue
      exact h
    · obtain ⟨hint, hflaw⟩ := fieldType_of_not_standsFor hfree hf h
      rw [hflaw] at hvalue
      cases hvalue
  · intro h
    rw [fieldType_of_standsFor hfree hf h]

end Linking

/-! ### Linked messages -/

/-- A filter that keeps all members keeps their positions. -/
theorem getElem?_filterMap_of_forall {α β : Type} {g : α → Option β} {l : List α}
    (h : ∀ x ∈ l, ∃ y, g x = some y) (k : Nat) : (l.filterMap g)[k]? = l[k]?.bind g := by
  induction l generalizing k with
  | nil => rfl
  | cons x rest ih =>
    obtain ⟨y, hy⟩ := h x List.mem_cons_self
    have ih := ih fun z hz => h z (List.mem_cons_of_mem _ hz)
    cases k with
    | zero => simp [hy]
    | succ k => simpa [hy] using ih k

namespace Linking
variable {files : List LoadedFile} {scope : QualifiedName} {ctx : Context}

theorem flaws_fieldType_subset {f : Decl.Field} {flaw : Flaw}
    (h : flaw ∈ (fieldType ctx scope f).flaws) : flaw ∈ (field ctx scope f).flaws := by
  unfold field
  dsimp only
  split
  · exact List.mem_append_left _ (List.mem_append_left _ h)
  · exact h

/-- Without flaws, a field has a type. -/
theorem exists_fieldType {f : Decl.Field} (h : (fieldType ctx scope f).flaws = []) :
    ∃ t, (fieldType ctx scope f).value = some t := by
  cases htype : f.type with
  | scalar type => exact ⟨.scalar type, by simp only [fieldType, htype]⟩
  | named type =>
    simp only [fieldType, htype, namedType] at h ⊢
    cases hresolve : ctx.registry.resolve scope type with
    | none => simp [hresolve] at h
    | some entry =>
      cases hrefusal : refusal ctx entry with
      | some hint => simp [hresolve, hrefusal] at h
      | none =>
        simp only [hrefusal]
        exact (refusal_eq_none_iff.mp hrefusal).1

/-- A message without flaws keeps all its fields, with the types they were linked to. -/
theorem getElem?_fields_message {m : MessageOutline} (h : (message ctx m).flaws = []) {k : Nat}
    {f : Decl.Field} (hf : m.decl.fields[k]? = some f) :
    ∃ g, (message ctx m).value.fields[k]? = some g ∧
      (fieldType ctx m.fullName f).value = some g.type := by
  obtain ⟨hrules, hlinked⟩ := List.append_eq_nil_iff.mp h
  have hall : ∀ f ∈ m.decl.fields, ∃ g, (field ctx m.fullName f).value = some g ∧
      (fieldType ctx m.fullName f).value = some g.type := by
    intro f hf
    have hflaws : (fieldType ctx m.fullName f).flaws = [] := by
      rw [List.eq_nil_iff_forall_not_mem]
      intro flaw hflaw
      have hmem : flaw ∈ (m.decl.fields.map (field ctx m.fullName)).flatMap (·.flaws) :=
        List.mem_flatMap.mpr ⟨_, List.mem_map_of_mem hf, flaws_fieldType_subset hflaw⟩
      rw [hlinked] at hmem
      cases hmem
    obtain ⟨t, ht⟩ := exists_fieldType hflaws
    obtain ⟨number, hnumber⟩ := (FieldRules.flaws_eq_nil_iff.mp hrules).exists_number hf
    simp only [field, ht, hnumber]
    exact ⟨_, rfl, rfl⟩
  obtain ⟨g, hg, htype⟩ := hall f (List.mem_of_getElem? hf)
  refine ⟨g, ?_, htype⟩
  rw [message, List.filterMap_map, getElem?_filterMap_of_forall, hf]
  · exact hg
  · intro f hf
    obtain ⟨g, hg, _⟩ := hall f hf
    exact ⟨g, hg⟩

theorem boxField_type (components : List Nat) (owner : Nat) (f : Field) :
    (boxField components owner f).type = f.type := by
  unfold boxField
  split <;> rfl

theorem getElem?_box {messages : List Message} {i : Nat} {m : Message}
    (h : messages[i]? = some m) :
    (box messages)[i]? = some { m with
      fields := m.fields.map (boxField (containment messages).componentNumbers i) } := by
  rw [box, List.getElem?_mapIdx, h]
  rfl

theorem getElem?_messagesOf {i : Nat} {m : MessageOutline}
    (hm : (Outline.ofFiles files).1.messages[i]? = some m) :
    (messagesOf files)[i]? = some (m.file, message (contextOf files m.file) m) := by
  rw [messagesOf, checkMessages, List.getElem?_map, hm]
  rfl

/-- The fields of a linked schema have the types that they were linked to. -/
theorem getElem?_fields_of_link {s : Schema} (h : link files = .ok s) {i k : Nat}
    {m : MessageOutline} {f : Decl.Field}
    (hm : (Outline.ofFiles files).1.messages[i]? = some m) (hf : m.decl.fields[k]? = some f) :
    ∃ message g, s.messages[i]? = some message ∧ message.fields[k]? = some g ∧
      (fieldType (contextOf files m.file) m.fullName f).value = some g.type := by
  have hchecked := getElem?_messagesOf hm
  have hflaws := flaws_eq_nil (List.append_eq_nil_iff.mp (findings_of_link h)).2
    (List.mem_of_getElem? hchecked)
  obtain ⟨g, hg, htype⟩ := getElem?_fields_message hflaws hf
  obtain ⟨rfl, _⟩ := eq_of_link h
  have hmessage : ((messagesOf files).map (·.2.value))[i]? =
      some (message (contextOf files m.file) m).value := by
    rw [List.getElem?_map, hchecked, Option.map_some]
  have hfield := congrArg (Option.map (boxField (containment
    ((messagesOf files).map (·.2.value))).componentNumbers i)) hg
  exact ⟨_, _, getElem?_box hmessage, (List.getElem?_map ..).trans hfield,
    (boxField_type ..).symm ▸ htype⟩

/-- A flaw in the type of a field keeps the files from being linked. -/
theorem mem_findings_of_fieldType {i k : Nat} {m : MessageOutline} {f : Decl.Field} {flaw : Flaw}
    (hm : (Outline.ofFiles files).1.messages[i]? = some m) (hf : m.decl.fields[k]? = some f)
    (hflaw : flaw ∈ (fieldType (contextOf files m.file) m.fullName f).flaws) :
    (m.file, flaw) ∈ findings (messagesOf files) := by
  refine mem_findings.mpr ⟨_, List.mem_of_getElem? (getElem?_messagesOf hm), rfl, ?_⟩
  refine List.mem_append_right _ (List.mem_flatMap.mpr ⟨_, ?_, flaws_fieldType_subset hflaw⟩)
  exact List.mem_map_of_mem (List.mem_of_getElem? hf)

/-- What `link` reports on, if no names clash. -/
theorem report?_of_link_error (hfree : ClashFree files) {e : SchemaError}
    (h : link files = .error e) :
    report? files (findings (enumsOf files) ++ findings (messagesOf files)) = some e := by
  have hclashes : report? files
      (Registry.enter (fileName files) [] (Outline.ofFiles files).1.names).2 = none := by
    rw [hfree]
    rfl
  simp only [link, hclashes] at h
  split at h
  · cases h
    assumption
  · cases h

theorem error_of_findings (hfree : ClashFree files) {x : Nat × Flaw}
    (hx : x ∈ findings (messagesOf files)) :
    ∃ e, link files = .error e ∧
      report? files (findings (enumsOf files) ++ findings (messagesOf files)) = some e := by
  cases hlink : link files with
  | error e => exact ⟨e, rfl, report?_of_link_error hfree hlink⟩
  | ok s =>
    rw [(List.append_eq_nil_iff.mp (findings_of_link hlink)).2] at hx
    cases hx

/-- **Type names are linked to what they stand for.** Let the names of some files not clash, and let
a field of one of their messages have a named type. What it is linked to is exactly what the name
stands for inside that message; in a schema, the field in its place has that type. If the name
stands for nothing, this is among the flaws found, and there is a report instead of a schema. A
field that has the selected name with a leading dot is linked to the same, inside any scope. And of
files with distinct names, each of which comes after those it imports, a definition has to be in the
file itself, or in one that is reached from an import of it along imports that are passed on. -/
theorem types_linked (hfree : ClashFree files) {i k : Nat} {m : MessageOutline} {f : Decl.Field}
    {type : Decl.TypeRef} (hm : (Outline.ofFiles files).1.messages[i]? = some m)
    (hf : m.decl.fields[k]? = some f) (htype : f.type = .named type) :
    (∀ t, (fieldType (contextOf files m.file) m.fullName f).value = some t ↔
      StandsFor files m.file m.fullName type t) ∧
    (∀ s, link files = .ok s → ∃ message g, s.messages[i]? = some message ∧
      message.fields[k]? = some g ∧
        ∀ t, g.type = t ↔ StandsFor files m.file m.fullName type t) ∧
    ((¬ ∃ t, StandsFor files m.file m.fullName type t) →
      (∃ hint, (m.file, Flaw.unresolvedType f.name.value type.text f.typeSpan hint) ∈
        findings (messagesOf files)) ∧
      ∃ e, link files = .error e ∧
        report? files (findings (enumsOf files) ++ findings (messagesOf files)) = some e) ∧
    (∀ full, Selects files m.fullName type full →
      ∀ (g : Decl.Field) (absolute : Decl.TypeRef), g.type = .named absolute →
        absolute.leadingDot.isSome = true → absolute.name.names = full →
          ∀ scope, (fieldType (contextOf files m.file) scope g).value =
            (fieldType (contextOf files m.file) m.fullName f).value) ∧
    ((files.map (·.source.name)).Nodup → (∀ a b, Visibility.Imports files a b → b < a) →
      ∀ t, StandsFor files m.file m.fullName type t ↔ ∃ full d owner,
        Selects files m.fullName type full ∧ Declares files full d owner ∧ typeOf d = some t ∧
          (owner = m.file ∨ ∃ b, Visibility.Imports files m.file b ∧
            Relation.ReflTransGen (Visibility.ImportsPublicly files) b owner)) := by
  have hiff : ∀ t, (fieldType (contextOf files m.file) m.fullName f).value = some t ↔
      StandsFor files m.file m.fullName type t := fun t => fieldType_eq_some_iff hfree htype
  refine ⟨hiff, ?_, ?_, ?_, ?_⟩
  · intro s hlink
    obtain ⟨message, g, hmessage, hg, hvalue⟩ := getElem?_fields_of_link hlink hm hf
    refine ⟨message, g, hmessage, hg, fun t => ?_⟩
    rw [← hiff t, hvalue, Option.some.injEq]
  · intro h
    obtain ⟨hint, hflaw⟩ := fieldType_of_not_standsFor hfree htype h
    have hmem : Flaw.unresolvedType f.name.value type.text f.typeSpan hint ∈
        (fieldType (contextOf files m.file) m.fullName f).flaws := by
      rw [hflaw]
      exact List.mem_singleton_self _
    have hfound := mem_findings_of_fieldType hm hf hmem
    exact ⟨⟨hint, hfound⟩, error_of_findings hfree hfound⟩
  · intro full hselects g absolute hg hdot hname scope
    ext t
    rw [hiff t, fieldType_eq_some_iff hfree hg]
    exact standsFor_absolute_iff hselects hdot hname scope t
  · intro hdistinct hfirst t
    have hfile := (Outline.ofFiles_inFiles files).messages m (List.mem_of_getElem? hm)
    simp only [StandsFor, Visibility.mem_visible_iff_imports hdistinct hfirst hfile]

end Linking

/-! ### A package that is passed over -/

namespace Atlas

/-- A declared file, of the given package and imports. -/
def fileDecl (name : String) (package : Decl.Dotted) (imports : List String)
    (messages : List Decl.Message) : LoadedFile :=
  ⟨⟨name, none, "", ⟨.proto2, some ⟨package, ⟨0, 0⟩⟩,
    imports.map fun value => ⟨.plain, value, ⟨0, 0⟩, ⟨0, 0⟩⟩, [], messages, []⟩⟩, true⟩

def ident (value : String) : Decl.Ident :=
  ⟨value, ⟨0, 0⟩⟩

/-- The name `shape.Point`. -/
def pointName : Decl.TypeRef :=
  ⟨none, ⟨ident "shape", [ident "Point"]⟩⟩

def atField : Decl.Field :=
  Tree.fieldDecl (some .optional) (.named pointName) "at" 1

def absoluteField : Decl.Field :=
  Tree.fieldDecl (some .optional) (.named ⟨some ⟨0, 0⟩,
    ⟨ident "geo", [ident "shape", ident "Point"]⟩⟩) "at" 1

/-- A map in the package `geo.map`, beside which there is a package `geo.map.shape`. The points are
those of `geo.shape`. -/
def files : List LoadedFile :=
  [fileDecl "point.proto" ⟨ident "geo", [ident "shape"]⟩ [] [Tree.messageDecl "Point" []],
    fileDecl "style.proto" ⟨ident "geo", [ident "map", ident "shape"]⟩ [] [],
    fileDecl "map.proto" ⟨ident "geo", [ident "map"]⟩ ["point.proto", "style.proto"]
      [Tree.messageDecl "Map" [atField]]]

def mapOutline : MessageOutline :=
  ⟨Tree.messageDecl "Map" [atField], ["geo", "map", "Map"], 2, none, [], []⟩

end Atlas

namespace Linking

/-- The package `geo.map.shape` lacks a `Point`, so the name is looked up further out, where it
stands for that of `geo.shape`; a field with that name in full is linked to it even at the top. -/
theorem types_linked_map :
    ClashFree Atlas.files ∧
      (Outline.ofFiles Atlas.files).1.messages[1]? = some Atlas.mapOutline ∧
      Selects Atlas.files ["geo", "map", "Map"] Atlas.pointName ["geo", "shape", "Point"] ∧
      StandsFor Atlas.files 2 ["geo", "map", "Map"] Atlas.pointName (.message 0) ∧
      (fieldType (contextOf Atlas.files 2) [] Atlas.absoluteField).value = some (.message 0) ∧
      (Atlas.files.map (·.source.name)).Nodup ∧
      (∀ a b, Visibility.Imports Atlas.files a b → b < a) ∧
      ∃ full d owner, Selects Atlas.files ["geo", "map", "Map"] Atlas.pointName full ∧
        Declares Atlas.files full d owner ∧ typeOf d = some (.message 0) ∧
          (owner = 2 ∨ ∃ b, Visibility.Imports Atlas.files 2 b ∧
            Relation.ReflTransGen (Visibility.ImportsPublicly Atlas.files) b owner) := by
  have hfree : ClashFree Atlas.files := rfl
  have hm : (Outline.ofFiles Atlas.files).1.messages[1]? = some Atlas.mapOutline := rfl
  have hresolve : (registryOf Atlas.files).resolve ["geo", "map", "Map"] Atlas.pointName =
      some ⟨["geo", "shape", "Point"], .message 0, 0, ⟨0, 0⟩⟩ := rfl
  obtain ⟨full, hselects, hget⟩ := (resolve_eq_some_iff hfree).mp hresolve
  cases Registry.name_of_get? hget
  have hf : Atlas.mapOutline.decl.fields[0]? = some Atlas.atField := rfl
  have hdistinct : (Atlas.files.map (·.source.name)).Nodup := by decide
  have hfirst : ∀ a b, Visibility.Imports Atlas.files a b → b < a :=
    Visibility.lt_of_imports (by decide)
  obtain ⟨hiff, _, _, habsolute, himports⟩ := types_linked hfree hm hf rfl
  have hstands : StandsFor Atlas.files 2 ["geo", "map", "Map"] Atlas.pointName (.message 0) :=
    (hiff _).mp rfl
  exact ⟨hfree, hm, hselects, hstands, habsolute _ hselects _ _ rfl rfl rfl [], hdistinct, hfirst,
    (himports hdistinct hfirst _).mp hstands⟩

end Linking

end Protobuf

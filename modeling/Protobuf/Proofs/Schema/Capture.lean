import Mathlib.Data.List.Pairwise
import Protobuf.Proofs.Schema.Appending

/-! What a further file does to those in front of it.

There is one set of names for all files, and whether a file may refer to what it finds is asked
only then. So a file that nobody imports can come between a type name and what the name stood for:
it does if it declares the name, or its first part, in a scope closer to the field (`Captured`).
The name then stands for nothing, as what is found there cannot be seen.

`link_concat`: this is all that a further file does. If it captures nothing, then what was linked
before stays as it was. -/
namespace Protobuf.Linking

variable {files : List LoadedFile} {g : LoadedFile} {scope inner : QualifiedName}
  {type : Decl.TypeRef} {file : Nat}

/-- A file has a type name in this scope: all of it, or its first part as something other than a
package, so that the rest is looked for there. -/
def Takes (g : SourceFile) (type : Decl.TypeRef) (inner : QualifiedName) : Prop :=
  (∃ x ∈ g.entries, x.name = inner ++ type.name.names) ∨
    ∃ x ∈ g.entries, x.name = inner ++ [type.name.first.value] ∧ x.isPackage = false

/-- A further file has a type name, as used inside `scope`, closer than where the files have it. -/
def Captured (files : List LoadedFile) (g : SourceFile) (scope : QualifiedName)
    (type : Decl.TypeRef) : Prop :=
  type.leadingDot.isSome = false ∧ ∃ around inner,
    Selects files scope type (around ++ type.name.names) ∧
      inner <+: scope ∧ around.length < inner.length ∧ Takes g type inner

/-! ### Scopes that decide -/

theorem mem_entries_concat {x : Entry} : x ∈ (files ++ [g]).flatMap (·.source.entries) ↔
    x ∈ files.flatMap (·.source.entries) ∨ x ∈ g.source.entries := by
  rw [List.flatMap_append, List.flatMap_singleton, List.mem_append]

theorem exists_concat_iff {p : Entry → Prop} :
    (∃ x ∈ (files ++ [g]).flatMap (·.source.entries), p x) ↔
      (∃ x ∈ files.flatMap (·.source.entries), p x) ∨ ∃ x ∈ g.source.entries, p x := by
  simp only [mem_entries_concat, or_and_right, exists_or]

theorem entries_around {pre : QualifiedName} {x : Entry}
    (hx : x ∈ files.flatMap (·.source.entries)) (hpre : pre <+: x.name) (hne : pre ≠ []) :
    ∃ y ∈ files.flatMap (·.source.entries), y.name = pre := by
  obtain ⟨f, hf, hx⟩ := List.mem_flatMap.mp hx
  obtain ⟨y, hy, hname⟩ := SourceFile.entries_around hx hpre hne
  exact ⟨y, List.mem_flatMap.mpr ⟨f, hf, hy⟩, hname⟩

theorem first_leads (inner : QualifiedName) (name : Decl.Dotted) :
    inner ++ [name.first.value] <+: inner ++ name.names :=
  List.prefix_append_right_inj inner |>.mpr ⟨_, rfl⟩

/-- Of names that do not clash, each is that of packages only or of none. -/
theorem isPackage_unique (hfree : ClashFree files) {x y : Entry}
    (hx : x ∈ files.flatMap (·.source.entries)) (hy : y ∈ files.flatMap (·.source.entries))
    (hname : x.name = y.name) : x.isPackage = y.isPackage := by
  by_cases hsame : x = y
  · rw [hsame]
  · have hboth := (clashFree_iff_entries.mp hfree).forall hx hy hsame hname
    rw [hboth.1, hboth.2]

/-- A name that is no package in one place is none anywhere. -/
theorem not_package_of_entry (hfree : ClashFree files) {x : Entry}
    (hx : x ∈ files.flatMap (·.source.entries)) (hfalse : x.isPackage = false) :
    ¬ ∃ y ∈ files.flatMap (·.source.entries), y.name = x.name ∧ y.isPackage = true := by
  intro hany
  obtain ⟨y, hy, hsame, htrue⟩ := hany
  have hboth := isPackage_unique hfree hx hy hsame.symm
  rw [hfalse, htrue] at hboth
  cases hboth

/-- A scope decides over a type name if it did before, or if the further file has the name. -/
theorem decides_concat_iff (hfree : ClashFree (files ++ [g])) :
    Decides (files ++ [g]) type.name.first.value (type.name.others.map (·.value)) inner ↔
      Decides files type.name.first.value (type.name.others.map (·.value)) inner ∨
        Takes g.source type inner := by
  have hne : inner ++ [type.name.first.value] ≠ [] := by simp
  have hnone {x : Entry} := not_package_of_entry hfree (x := x)
  unfold Decides
  simp only [declared_iff_entries, package_iff_entries, exists_concat_iff] at hnone ⊢
  simp only [mem_entries_concat] at hnone
  constructor
  · intro h
    obtain ⟨hfirst, hnil | hfull | hnot⟩ := h
    · rcases hfirst with hfirst | ⟨x, hx, hname⟩
      · exact .inl ⟨hfirst, .inl hnil⟩
      · refine .inr (.inl ⟨x, hx, hname.trans ?_⟩)
        rw [Decl.Dotted.names, Decl.Dotted.parts, List.map_cons, hnil]
    · rcases hfull with ⟨x, hx, hname⟩ | hfull
      · have hfirst := entries_around hx (hname ▸ first_leads inner type.name) hne
        exact .inl ⟨hfirst, .inr (.inl ⟨x, hx, hname⟩)⟩
      · exact .inr (.inl hfull)
    · rcases hfirst with hfirst | ⟨x, hx, hname⟩
      · exact .inl ⟨hfirst, .inr (.inr fun hpackage => hnot (.inl hpackage))⟩
      · refine .inr (.inr ⟨x, hx, hname, Bool.eq_false_iff.mpr fun hpackage => ?_⟩)
        exact hnot (.inr ⟨x, hx, hname, hpackage⟩)
  · intro h
    rcases h with ⟨⟨x, hx, hname⟩, hrest⟩ | ⟨x, hx, hname⟩ | ⟨x, hx, hname, hfalse⟩
    · refine ⟨.inl ⟨x, hx, hname⟩, ?_⟩
      rcases hrest with hnil | hfull | hnot
      · exact .inl hnil
      · exact .inr (.inl (.inl hfull))
      · have hfalse : x.isPackage = false :=
          Bool.eq_false_iff.mpr fun hpackage => hnot ⟨x, hx, hname, hpackage⟩
        exact .inr (.inr (hname ▸ hnone (.inl hx) hfalse))
    · obtain ⟨y, hy, hfirst⟩ :=
        SourceFile.entries_around hx (hname ▸ first_leads inner type.name) hne
      exact ⟨.inr ⟨y, hy, hfirst⟩, .inr (.inl (.inr ⟨x, hx, hname⟩))⟩
    · exact ⟨.inr ⟨x, hx, hname⟩, .inr (.inr (hname ▸ hnone (.inr hx) hfalse))⟩

/-! ### What type names stand for -/

theorem selects_concat (hfree : ClashFree (files ++ [g])) {full : QualifiedName}
    (h : Selects files scope type full) (hnot : ¬ Captured files g.source scope type) :
    Selects (files ++ [g]) scope type full := by
  cases h with
  | absolute hdot => exact .absolute hdot
  | @relative around hdot hin hdecides hlast =>
    refine .relative hdot hin ((decides_concat_iff hfree).mpr (.inl hdecides)) ?_
    intro inner hinner hlonger hdecidesInner
    rcases (decides_concat_iff hfree).mp hdecidesInner with hbefore | htakes
    · exact hlast inner hinner hlonger hbefore
    · exact hnot ⟨hdot, around, inner, .relative hdot hin hdecides hlast, hinner, hlonger, htakes⟩

theorem standsFor_concat (hfree : ClashFree (files ++ [g])) (hg : Visibility.Unimported files g)
    (hfile : file < files.length) {t : FieldType} (h : StandsFor files file scope type t)
    (hnot : ¬ Captured files g.source scope type) : StandsFor (files ++ [g]) file scope type t := by
  obtain ⟨full, d, owner, hselects, hdeclares, htype, hvisible⟩ := h
  refine ⟨full, d, owner, selects_concat hfree hselects hnot,
    declares_concat_iff.mpr (.inl hdeclares), htype, ?_⟩
  rw [Visibility.visible_concat hg hfile]
  exact hvisible

/-- Closer to the field than the scope that was selected, none decides. -/
theorem not_decides_of_selects {around : QualifiedName} (hdot : type.leadingDot.isSome = false)
    (h : Selects files scope type (around ++ type.name.names)) (hinner : inner <+: scope)
    (hlonger : around.length < inner.length) :
    ¬ Decides files type.name.first.value (type.name.others.map (·.value)) inner := by
  generalize hfull : around ++ type.name.names = full at h
  cases h with
  | absolute hsome => simp [hdot] at hsome
  | relative _ _ _ hlast =>
    cases List.append_cancel_right hfull
    exact hlast inner hinner hlonger

/-- A scope where all of a type name is declared decides over it. -/
theorem decides_of_declares {d : Definition} {owner : Nat}
    (h : Declares files (inner ++ type.name.names) d owner) :
    Decides files type.name.first.value (type.name.others.map (·.value)) inner := by
  have hfull : ∃ d k, Declares files (inner ++ type.name.names) d k := ⟨d, owner, h⟩
  obtain ⟨x, hx, hname⟩ := declared_iff_entries.mp hfull
  exact ⟨declared_iff_entries.mpr (entries_around hx (hname ▸ first_leads inner type.name)
    (by simp)), .inr (.inl hfull)⟩

/-- A captured name leads to nothing that can be seen. -/
theorem not_standsFor_of_captured (hfree : ClashFree (files ++ [g]))
    (hg : Visibility.Unimported files g) (hfile : file < files.length)
    (h : Captured files g.source scope type) :
    ¬ ∃ t, StandsFor (files ++ [g]) file scope type t := by
  intro hstands
  obtain ⟨t, full, d, owner, hselects, hdeclares, _, hvisible⟩ := hstands
  obtain ⟨hdot, around, inner, hbefore, hinner, hlonger, htakes⟩ := h
  rw [Visibility.visible_concat hg hfile] at hvisible
  have howner := Visibility.lt_of_mem_visible hfile hvisible
  cases hselects with
  | absolute hsome => simp [hdot] at hsome
  | @relative closer _ hin _ hlast =>
    -- The scope selected now is at least as close as the one with the further file's name.
    have hcloser : inner.length ≤ closer.length := Nat.le_of_not_lt fun hlt =>
      hlast inner hinner hlt ((decides_concat_iff hfree).mpr (.inr htakes))
    have hnot := not_decides_of_selects hdot hbefore hin (Nat.lt_of_lt_of_le hlonger hcloser)
    rcases declares_concat_iff.mp hdeclares with hdeclares | ⟨entry, hentry, _, _, hfile'⟩
    · exact hnot (decides_of_declares hdeclares)
    · have := Outline.file_of_mem_added hentry
      omega

/-! ### Fields and messages -/

theorem enum_lt_of_standsFor {i : Nat} (h : StandsFor files file scope type (.enum i)) :
    i < ((enumsOf files).map (·.2.value)).length := by
  obtain ⟨full, d, owner, _, hdeclares, htype, _⟩ := h
  cases d with
  | enum j =>
    cases htype
    obtain ⟨x, hx, _⟩ := (declares_iff .enum).mp hdeclares
    simpa [enumsOf, checkEnums, Outline.places] using (List.getElem?_eq_some_iff.mp hx).1
  | package | message | enumValue => cases htype

/-- A field whose type name is not captured is linked as before. -/
theorem field_concat (hbefore : ClashFree files) (hfree : ClashFree (files ++ [g]))
    (hg : Visibility.Unimported files g) (hfile : file < files.length) {f : Decl.Field}
    (hflaws : (field (contextOf files file) scope f).flaws = [])
    (hnot : ∀ type, f.type = .named type → ¬ Captured files g.source scope type) :
    field (contextOf (files ++ [g]) file) scope f = field (contextOf files file) scope f := by
  obtain ⟨t, ht⟩ := exists_fieldType (flaws_fieldType_eq_nil hflaws)
  obtain ⟨more, hmore⟩ := enumsOf_concat files g
  have hsame : fieldType (contextOf (files ++ [g]) file) scope f =
      fieldType (contextOf files file) scope f ∧
        ∀ i, t = .enum i → i < ((enumsOf files).map (·.2.value)).length := by
    cases htype : f.type with
    | scalar type =>
      simp only [fieldType, htype] at ht ⊢
      cases ht
      exact ⟨trivial, fun i hi => by cases hi⟩
    | named type =>
      have hstands := (fieldType_eq_some_iff hbefore htype).mp ht
      have hafter := standsFor_concat hfree hg hfile hstands (hnot type htype)
      rw [fieldType_of_standsFor hbefore htype hstands, fieldType_of_standsFor hfree htype hafter]
      exact ⟨rfl, fun i hi => enum_lt_of_standsFor (hi ▸ hstands)⟩
  have hdefault : ∀ c, default (contextOf (files ++ [g]) file) f c t =
      default (contextOf files file) f c t := by
    intro c
    simp only [default, contextOf, hmore, List.map_append, ofSetting_append _ c hsame.2]
  simp only [field, hsame.1, ht]
  cases FieldRules.number? f.number with
  | none => rfl
  | some number => simp only [hdefault]

/-- A field whose type name is captured has this as its only flaw. -/
theorem field_of_captured (hfree : ClashFree (files ++ [g]))
    (hg : Visibility.Unimported files g) (hfile : file < files.length) {f : Decl.Field}
    (hf : f.type = .named type) (h : Captured files g.source scope type) :
    ∃ hint, field (contextOf (files ++ [g]) file) scope f =
      ⟨none, [.unresolvedType f.name.value type.text f.typeSpan hint]⟩ := by
  obtain ⟨hint, htype⟩ := fieldType_of_not_standsFor hfree hf
    (not_standsFor_of_captured hfree hg hfile h)
  exact ⟨hint, by simp only [field, htype]⟩

/-- A flaw of a field that had none is that its type name is captured. -/
theorem captured_of_mem_field (hbefore : ClashFree files) (hfree : ClashFree (files ++ [g]))
    (hg : Visibility.Unimported files g) (hfile : file < files.length) {f : Decl.Field}
    (hflaws : (field (contextOf files file) scope f).flaws = []) {flaw : Flaw}
    (hflaw : flaw ∈ (field (contextOf (files ++ [g]) file) scope f).flaws) :
    ∃ type hint, f.type = .named type ∧ Captured files g.source scope type ∧
      flaw = .unresolvedType f.name.value type.text f.typeSpan hint := by
  by_cases hcaptured : ∃ type, f.type = .named type ∧ Captured files g.source scope type
  · obtain ⟨type, htype, hcaptured⟩ := hcaptured
    obtain ⟨hint, hfield⟩ := field_of_captured hfree hg hfile htype hcaptured
    rw [hfield] at hflaw
    exact ⟨type, hint, htype, hcaptured, List.mem_singleton.mp hflaw⟩
  · rw [field_concat hbefore hfree hg hfile hflaws
      fun type htype hcapture => hcaptured ⟨type, htype, hcapture⟩, hflaws] at hflaw
    cases hflaw

theorem message_concat (hbefore : ClashFree files) (hfree : ClashFree (files ++ [g]))
    (hg : Visibility.Unimported files g) {m : MessageOutline}
    (hm : m ∈ (Outline.ofFiles files).1.messages)
    (hflaws : (message (contextOf files m.file) m).flaws = [])
    (hnot : ∀ f ∈ m.decl.fields, ∀ type, f.type = .named type →
      ¬ Captured files g.source m.fullName type) :
    message (contextOf (files ++ [g]) m.file) m = message (contextOf files m.file) m := by
  have hfields : m.decl.fields.map (field (contextOf (files ++ [g]) m.file) m.fullName) =
      m.decl.fields.map (field (contextOf files m.file) m.fullName) :=
    List.map_congr_left fun f hf => field_concat hbefore hfree hg
      ((Outline.ofFiles_inFiles files).messages m hm) (exists_field hflaws hf).1 (hnot f hf)
  simp only [message, hfields]

/-! ### What is found and what is linked -/

/-- What linking finds: clashes of names, and if there are none, the flaws of definitions. -/
def found (files : List LoadedFile) : Findings :=
  match (Registry.enter (fileName files) [] (Outline.ofFiles files).1.names).2 with
  | [] => findings (enumsOf files) ++ findings (messagesOf files)
  | clashes => clashes

theorem found_of_clashFree (hfree : ClashFree files) :
    found files = findings (enumsOf files) ++ findings (messagesOf files) := by
  unfold found
  rw [hfree]

theorem found_of_not_clashFree (hclash : ¬ ClashFree files) :
    found files = (Registry.enter (fileName files) [] (Outline.ofFiles files).1.names).2 := by
  unfold found
  split
  · rename_i hnil
    exact absurd hnil hclash
  · rfl

/-- A report is on what is found. -/
theorem link_eq_error_iff {e : SchemaError} :
    link files = .error e ↔ report? files (found files) = some e := by
  by_cases hfree : ClashFree files
  · rw [found_of_clashFree hfree]
    refine ⟨report?_of_link_error hfree, fun h => ?_⟩
    cases hlink : link files with
    | error e' =>
      rw [report?_of_link_error hfree hlink] at h
      rw [Option.some.inj h]
    | ok s =>
      rw [(eq_of_link hlink).2] at h
      cases h
  · rw [found_of_not_clashFree hfree]
    cases hreport : report? files
        (Registry.enter (fileName files) [] (Outline.ofFiles files).1.names).2 with
    | none => exact absurd (clashFree_of_report? hreport) hfree
    | some e' => simp only [link, hreport, Except.error.injEq, Option.some.injEq]

theorem exists_link_iff_found : (∃ s, link files = .ok s) ↔ found files = [] := by
  constructor
  · intro h
    obtain ⟨s, hs⟩ := h
    rw [found_of_clashFree (clashFree_of_link hs), findings_of_link hs]
  · intro h
    cases hlink : link files with
    | ok s => exact ⟨s, rfl⟩
    | error e =>
      rw [link_eq_error_iff, h] at hlink
      cases hlink

/-- The further file has no clash, as none is found in it. -/
theorem clashFree_of_found (hbefore : ClashFree files)
    (hnone : ∀ x ∈ found (files ++ [g]), x.1 ≠ files.length) : ClashFree (files ++ [g]) := by
  by_contra hclash
  rw [found_of_not_clashFree hclash] at hnone
  exact hclash (clashFree_concat hbefore hnone)

theorem mem_found_of_message (hfree : ClashFree files) {m : MessageOutline} {flaw : Flaw}
    (hm : m ∈ (Outline.ofFiles files).1.messages)
    (hflaw : flaw ∈ (message (contextOf files m.file) m).flaws) : (m.file, flaw) ∈ found files := by
  rw [found_of_clashFree hfree]
  exact List.mem_append_right _ (mem_findings.mpr ⟨_, List.mem_map_of_mem hm, rfl, hflaw⟩)

theorem exists_of_mem_found (hfree : ClashFree files) {x : Nat × Flaw} (hx : x ∈ found files) :
    (∃ e ∈ (Outline.ofFiles files).1.enums, e.file = x.1 ∧
      x.2 ∈ EnumRules.flaws (edition files e.file) e.decl) ∨
    ∃ m ∈ (Outline.ofFiles files).1.messages, m.file = x.1 ∧
      x.2 ∈ (message (contextOf files m.file) m).flaws := by
  rw [found_of_clashFree hfree] at hx
  rcases List.mem_append.mp hx with hx | hx
  · obtain ⟨c, hc, hfile, hflaw⟩ := mem_findings.mp hx
    obtain ⟨e, he, rfl⟩ := List.mem_map.mp hc
    exact .inl ⟨e, he, hfile, hflaw⟩
  · obtain ⟨c, hc, hfile, hflaw⟩ := mem_findings.mp hx
    obtain ⟨m, hm, rfl⟩ := List.mem_map.mp hc
    exact .inr ⟨m, hm, hfile, hflaw⟩

/-- A field of the files has a type name that the further file captures. -/
structure CapturedField (files : List LoadedFile) (g : SourceFile) (m : MessageOutline)
    (f : Decl.Field) (type : Decl.TypeRef) : Prop where
  message : m ∈ (Outline.ofFiles files).1.messages
  field : f ∈ m.decl.fields
  named : f.type = .named type
  captured : Captured files g m.fullName type

section Further
variable {s : Schema} (hs : link files = .ok s) (hg : Visibility.Unimported files g)
  (hnone : ∀ x ∈ found (files ++ [g]), x.1 ≠ files.length)
include hs hg hnone

/-- What is found is that names are captured. -/
theorem captured_of_found {x : Nat × Flaw} (hx : x ∈ found (files ++ [g])) :
    ∃ m f type hint, CapturedField files g.source m f type ∧
      x = (m.file, .unresolvedType f.name.value type.text f.typeSpan hint) := by
  have hbefore := clashFree_of_link hs
  have hfree := clashFree_of_found hbefore hnone
  obtain ⟨_, henums, hmessages⟩ := exists_link_iff.mp ⟨s, hs⟩
  have hother := hnone x hx
  have hmem := exists_of_mem_found hfree hx
  rw [(Outline.ofFiles_concat files g).1, Outline.enums_append, Outline.messages_append] at hmem
  rcases hmem with ⟨e, he, hfile, hflaw⟩ | ⟨m, hm, hfile, hflaw⟩
  · rcases List.mem_append.mp he with he | he
    · rw [edition_concat ((Outline.ofFiles_inFiles files).enums e he), henums e he] at hflaw
      cases hflaw
    · exact absurd (hfile.symm.trans ((inFiles_added files g).enums e he).symm) hother
  · rcases List.mem_append.mp hm with hm | hm
    · have hlt := (Outline.ofFiles_inFiles files).messages m hm
      rcases List.mem_append.mp hflaw with hrule | hflaw
      · rw [(List.append_eq_nil_iff.mp (hmessages m hm)).1] at hrule
        cases hrule
      · obtain ⟨_, hchecked, hflaw⟩ := List.mem_flatMap.mp hflaw
        obtain ⟨f, hf, rfl⟩ := List.mem_map.mp hchecked
        obtain ⟨type, hint, htype, hcaptured, hunresolved⟩ :=
          captured_of_mem_field hbefore hfree hg hlt (exists_field (hmessages m hm) hf).1 hflaw
        exact ⟨m, f, type, hint, ⟨hm, hf, htype, hcaptured⟩, Prod.ext hfile.symm hunresolved⟩
    · exact absurd (hfile.symm.trans ((inFiles_added files g).messages m hm).symm) hother

/-- That a name is captured is found. -/
theorem found_of_captured {m : MessageOutline} {f : Decl.Field}
    (h : CapturedField files g.source m f type) : ∃ hint,
      (m.file, .unresolvedType f.name.value type.text f.typeSpan hint) ∈ found (files ++ [g]) := by
  have hfree := clashFree_of_found (clashFree_of_link hs) hnone
  have hlt := (Outline.ofFiles_inFiles files).messages m h.message
  obtain ⟨hint, hfield⟩ := field_of_captured hfree hg hlt h.named h.captured
  refine ⟨hint, mem_found_of_message hfree ?_ ?_⟩
  · rw [(Outline.ofFiles_concat files g).1, Outline.messages_append]
    exact List.mem_append_left _ h.message
  · refine List.mem_append_right _ (List.mem_flatMap.mpr ⟨_, List.mem_map_of_mem h.field, ?_⟩)
    rw [hfield]
    exact List.mem_singleton_self _

/-- What was linked before stays as it was. -/
theorem prefix_of_link_concat {t : Schema} (ht : link (files ++ [g]) = .ok t) :
    s.files <+: t.files ∧ s.messages <+: t.messages ∧ s.enums <+: t.enums := by
  obtain ⟨more, hmore⟩ := enumsOf_concat files g
  obtain ⟨houtline, entry, hentry⟩ := Outline.ofFiles_concat files g
  have hbefore := clashFree_of_link hs
  have hfree := clashFree_of_link ht
  have hfound := exists_link_iff_found.mp ⟨t, ht⟩
  have hmessages : (Outline.ofFiles files).1.messages.map
      (fun m => (message (contextOf (files ++ [g]) m.file) m).value) =
        (messagesOf files).map (·.2.value) := by
    rw [messagesOf, checkMessages, List.map_map]
    refine List.map_congr_left fun m hm => ?_
    have hflaws := (exists_link_iff.mp ⟨s, hs⟩).2.2 m hm
    refine congrArg Checked.value (message_concat hbefore hfree hg hm hflaws ?_)
    intro f hf type htype hcaptured
    obtain ⟨hint, hmem⟩ := found_of_captured hs hg hnone ⟨hm, hf, htype, hcaptured⟩
    rw [hfound] at hmem
    cases hmem
  have hall : (messagesOf (files ++ [g])).map (·.2.value) =
      (messagesOf files).map (·.2.value) ++ (Outline.added files g).messages.map
        (fun m => (message (contextOf (files ++ [g]) m.file) m).value) := by
    rw [← hmessages, ← List.map_append, ← Outline.messages_append, ← houtline, messagesOf,
      checkMessages, List.map_map]
    rfl
  have hrange := containment_inRange (files ++ [g])
  rw [hall] at hrange
  rw [(eq_of_link hs).1, (eq_of_link ht).1]
  refine ⟨⟨[entry], hentry.symm⟩, ?_, ?_⟩
  · dsimp only
    rw [hall]
    exact box_append (containment_inRange files) hrange
  · rw [hmore, List.map_append]
    exact List.prefix_append _ _

end Further

/-- **A further file only captures names.** Let files be linked, and let one more follow that none
of them imports and in which no flaw is found. All that is found then is that type names of fields
in front stand for nothing, and these are the names that the further file captures. So all files are
linked together if and only if it captures none; and then what was linked before stays as it was,
with each field linked to the same definition. -/
theorem link_concat {s : Schema} (hs : link files = .ok s)
    (hunused : ∀ f ∈ files, g.source.name ∉ f.source.imports)
    (hnone : ∀ x ∈ found (files ++ [g]), x.1 ≠ files.length) :
    (∀ x ∈ found (files ++ [g]), ∃ m f type hint, CapturedField files g.source m f type ∧
      x = (m.file, .unresolvedType f.name.value type.text f.typeSpan hint)) ∧
    (∀ m f type, CapturedField files g.source m f type → ∃ hint,
      (m.file, .unresolvedType f.name.value type.text f.typeSpan hint) ∈ found (files ++ [g])) ∧
    ((∃ t, link (files ++ [g]) = .ok t) ↔ ¬ ∃ m f type, CapturedField files g.source m f type) ∧
    ∀ t, link (files ++ [g]) = .ok t →
      s.files <+: t.files ∧ s.messages <+: t.messages ∧ s.enums <+: t.enums := by
  refine ⟨fun x hx => captured_of_found hs hunused hnone hx,
    fun m f type h => found_of_captured hs hunused hnone h, ?_,
    fun t ht => prefix_of_link_concat hs hunused hnone ht⟩
  rw [exists_link_iff_found]
  constructor
  · intro hfound hany
    obtain ⟨m, f, type, hcaptured⟩ := hany
    obtain ⟨hint, hmem⟩ := found_of_captured hs hunused hnone hcaptured
    rw [hfound] at hmem
    cases hmem
  · intro hnot
    refine List.eq_nil_iff_forall_not_mem.mpr fun x hx => ?_
    obtain ⟨m, f, type, hint, hcaptured, _⟩ := captured_of_found hs hunused hnone hx
    exact hnot ⟨m, f, type, hcaptured⟩

end Protobuf.Linking

/-! ### A shop -/

namespace Protobuf.Shop
open Atlas (fileDecl ident)

def sizeField : Decl.Field :=
  Tree.fieldDecl (some .optional) (.named ⟨none, ⟨ident "unit", [ident "Length"]⟩⟩) "size" 1

/-- The parts of `shop.stock` have a size, given as a length of the package `unit`. -/
def files : List LoadedFile :=
  [fileDecl "unit.proto" ⟨ident "unit", []⟩ [] [Tree.messageDecl "Length" []],
    fileDecl "part.proto" ⟨ident "shop", [ident "stock"]⟩ ["unit.proto"]
      [Tree.messageDecl "Part" [sizeField]]]

/-- Here `shop` has a unit of its own. -/
def unitSale : LoadedFile :=
  fileDecl "sale.proto" ⟨ident "shop", []⟩ [] [Tree.messageDecl "unit" []]

def plainSale : LoadedFile :=
  fileDecl "sale.proto" ⟨ident "shop", []⟩ [] [Tree.messageDecl "Sale" []]

def schema : Schema :=
  { files := [⟨"unit.proto", some ["unit"], .proto2, [0], [], true⟩,
      ⟨"part.proto", some ["shop", "stock"], .proto2, [1], [], true⟩]
    messages := [⟨"Length", ["unit", "Length"], 0, none, [], [], []⟩,
      ⟨"Part", ["shop", "stock", "Part"], 1, none,
        [⟨"size", 1, .optional, .message 0, false, none, false⟩], [], []⟩]
    enums := [] }

theorem link_files : Linking.link files = .ok schema := rfl

theorem files_importsFirst : Visibility.ImportsFirst files := by
  intro k f hf name hname
  match k with
  | 0 =>
    cases hf
    cases hname
  | 1 =>
    cases hf
    exact ⟨0, _, Nat.zero_lt_one, rfl, (List.mem_singleton.mp hname).symm⟩
  | _ + 2 => cases hf

/-- The name `unit.Length` now leads into the unit of `shop`, where there is no length. -/
theorem found_unitSale : Linking.found (files ++ [unitSale]) =
    [(1, .unresolvedType "size" "unit.Length" ⟨0, 0⟩ none)] := by
  decide +kernel

end Protobuf.Shop

namespace Protobuf.Linking

/-- The sale is nobody's business, and the parts are linked as they were. -/
theorem link_concat_shop :
    link Shop.files = .ok Shop.schema ∧ Visibility.ImportsFirst Shop.files ∧
      (∀ f ∈ Shop.files, Shop.plainSale.source.name ∉ f.source.imports) ∧
      found (Shop.files ++ [Shop.plainSale]) = [] ∧
      (¬ ∃ m f type, CapturedField Shop.files Shop.plainSale.source m f type) ∧
      ∃ t, link (Shop.files ++ [Shop.plainSale]) = .ok t ∧ Shop.schema.messages <+: t.messages := by
  have hfound : found (Shop.files ++ [Shop.plainSale]) = [] := by decide +kernel
  have hnone : ∀ x ∈ found (Shop.files ++ [Shop.plainSale]), x.1 ≠ Shop.files.length := by
    rw [hfound]
    exact nofun
  have hunused : ∀ f ∈ Shop.files, Shop.plainSale.source.name ∉ f.source.imports := by decide
  obtain ⟨_, _, hiff, hsame⟩ := link_concat Shop.link_files hunused hnone
  obtain ⟨t, ht⟩ := exists_link_iff_found.mpr hfound
  exact ⟨Shop.link_files, Shop.files_importsFirst, hunused, hfound, hiff.mp ⟨t, ht⟩, t, ht,
    (hsame t ht).2.1⟩

/-- A file that no other imports, that has no name of theirs and no flaw of its own, can still keep
them from being linked. -/
theorem not_link_of_further_file :
    ∃ files g s, link files = .ok s ∧ ((files ++ [g]).map (·.source.name)).Nodup ∧
      Visibility.ImportsFirst files ∧
      (∀ f ∈ files, g.source.name ∉ f.source.imports) ∧
      (∀ a ∈ files.flatMap (·.source.entries), ∀ b ∈ g.source.entries, a.Compatible b) ∧
      (∀ x ∈ found (files ++ [g]), x.1 ≠ files.length) ∧
      ¬ ∃ t, link (files ++ [g]) = .ok t := by
  refine ⟨Shop.files, Shop.unitSale, Shop.schema, Shop.link_files, by decide,
    Shop.files_importsFirst, ?_, ?_, ?_, ?_⟩
  · decide
  · unfold Entry.Compatible
    decide +kernel
  · rw [Shop.found_unitSale]
    decide
  · rw [exists_link_iff_found, Shop.found_unitSale]
    exact nofun

end Protobuf.Linking

import Protobuf.Proofs.Source.Enums

/-! Fields and messages.

A field may have a label and options as the language level allows it; what it may not have is
reported after the field was read. Messages may be nested. The number of words bounds the levels,
and that is enough for every message, since the messages in it are shorter. -/
namespace Protobuf.Grammar
open Decl Protobuf.Parser
open scoped Computability

variable {next : Option Token → Prop}

/-! ### The types of fields -/

theorem reads_typeAfterMap (span : Span) :
    Reads (fun _ => (Phrase.sign .dot * Phrase.ident)∗) (typeAfterMap span) := by
  intro c
  refine .peek ?_
  split
  · exact readsAt_report keeps_fail
  · exact (reads_dottedFrom _).andReturn (fun _ => ⟨_, rfl⟩) _

/-- A type name without a leading dot starts with an identifier, one with it with a dot. -/
theorem mem_typeName_iff {w : List Token} :
    w ∈ Phrase.typeName ↔ w ∈ Phrase.dotted ∨ w ∈ Phrase.sign .dot * Phrase.dotted := by
  rw [Phrase.typeName, add_mul, one_mul]
  exact Iff.rfl

theorem nil_notMem_typeName : [] ∉ Phrase.typeName := by
  intro h
  rcases mem_typeName_iff.mp h with h | h
  · obtain ⟨_, hhead⟩ := Phrase.head?_of_mem_dotted h
    cases hhead
  · exact nil_notMem_token_mul _ _ h

theorem reads_fieldType : Reads (fun _ => Phrase.fieldType) fieldType := by
  intro c
  refine .peek ?_
  split
  · rename_i span h
    refine (reads_typeAfterMap _).advance h fun _ w hw => .inr ?_
    obtain ⟨u, rfl, v, hv, rfl⟩ := Language.mem_mul.mp hw
    have hmap : ¬ (Scalar.ofName? "map").isSome = true := by decide
    exact ⟨Language.append_mem_mul ⟨"map", rfl⟩ hv, Phrase.notMem_startingWith_of_ident rfl hmap⟩
  · rename_i word span _ h
    cases hscalar : Scalar.ofName? word with
    | some scalar =>
      have hword : word ∈ Phrase.scalarNames := by simp [Phrase.scalarNames, hscalar]
      exact readsAt_advance_pure h (.inl (.inl ⟨word, hword, rfl⟩))
    | none =>
      refine (reads_typeRef.head h fun _ => nil_notMem_typeName).andPure fun _ w hw => .inr ?_
      obtain ⟨hw, hhead⟩ := hw
      rcases mem_typeName_iff.mp hw with hw | hw
      · have hword : word ∉ Phrase.scalarNames := by simp [Phrase.scalarNames, hscalar]
        exact ⟨hw, Phrase.notMem_startingWith_of_ident hhead hword⟩
      · cases hhead.symm.trans (head?_of_mem_token_mul hw)
  · rename_i span h
    refine (reads_typeRef.head h fun _ => nil_notMem_typeName).andPure
      fun _ w hw => .inl (.inr ?_)
    obtain ⟨hw, hhead⟩ := hw
    rcases mem_typeName_iff.mp hw with hw | hw
    · obtain ⟨name, hname⟩ := Phrase.head?_of_mem_dotted hw
      cases hhead.symm.trans hname
    · exact hw
  · exact reads_unexpected _ _

/-- What follows the type of a field. -/
def IsWord (t : Option Token) : Prop :=
  ∃ name, t = some (.ident name)

theorem leads_ident_mul (rest : Language Token) : Leads next (Phrase.ident * rest) IsWord := by
  intro v hv t _
  obtain ⟨u, ⟨name, rfl⟩, v, _, rfl⟩ := Language.mem_mul.mp hv
  exact ⟨name, rfl⟩

theorem IsWord.notDot {t : Option Token} (h : IsWord t) : NotDot t := by
  obtain ⟨name, rfl⟩ := h
  nofun

theorem accepts_typeAfterMap (span : Span) :
    Accepts IsWord (Phrase.sign .dot * Phrase.ident)∗ Any (typeAfterMap span) := by
  have hname : Accepts IsWord (Phrase.sign .dot * Phrase.ident)∗ Any
      (dottedFrom ⟨"map", span⟩ >>= fun name => pure (TypeExpr.named ⟨none, name⟩, name.span)) :=
    ((accepts_dottedFrom _).followed fun _ => IsWord.notDot).andPure fun _ _ => trivial
  have hleads : Leads IsWord (Phrase.sign .dot * Phrase.ident)∗ (· ≠ some (.punct .leftAngle)) := by
    refine .kstar (leads_token_mul nofun) (nil_notMem_token_mul _ _) fun t ht => ?_
    obtain ⟨name, rfl⟩ := ht
    nofun
  refine .peek fun v hv t ht w hw => ?_
  have hangle := hleads v hv t ht
  rw [← hw] at hangle
  split
  · exact absurd rfl hangle
  · exact hname

theorem accepts_fieldType : Accepts IsWord Phrase.fieldType Any fieldType := by
  have htype : Accepts IsWord Phrase.typeName Any
      (typeRef >>= fun type => pure (TypeExpr.named type, type.span)) :=
    (accepts_typeRef.followed fun _ => IsWord.notDot).andPure fun _ _ => trivial
  refine .add (.add ?_ ?_) ?_
  · refine .peekEach fun v hv => ?_
    obtain ⟨name, hname, rfl⟩ := hv
    obtain ⟨scalar, hscalar⟩ := Option.isSome_iff_exists.mp hname
    have hmap : name ≠ "map" := by
      rintro rfl
      cases hscalar
    exact ⟨_, rfl, fun span => ⟨(.scalar scalar, span), trivial, by simp only [hscalar]⟩⟩
  · have hle : Phrase.sign .dot * Phrase.dotted ≤ Phrase.typeName :=
      fun v hv => mem_typeName_iff.mpr (.inr hv)
    exact .peekHead (htype.mono hle) fun v hv => ⟨_, head?_of_mem_token_mul hv, fun _ => rfl⟩
  · refine .of_forall fun w hw => ?_
    obtain ⟨hdotted, hstart⟩ := hw
    obtain ⟨_, ⟨name, rfl⟩, v, hv, rfl⟩ := Language.mem_mul.mp hdotted
    by_cases hmap : name = "map"
    · have hread : Accepts IsWord (Phrase.keyword name * (Phrase.sign .dot * Phrase.ident)∗) Any
          fieldType := hmap ▸ .peekToken (fun _ => rfl) accepts_typeAfterMap
      refine hread.mono ?_
      rintro _ rfl
      exact Language.append_mem_mul (Set.mem_singleton _) hv
    · have hnone : Scalar.ofName? name = none := by
        by_contra hsome
        exact hstart ⟨name, Option.isSome_iff_ne_none.mpr hsome, rfl⟩
      refine .peekHead (htype.mono ?_) ?_
      · rintro _ rfl
        exact mem_typeName_iff.mpr (.inl hdotted)
      · rintro _ rfl
        exact ⟨.ident name, rfl, fun span => by simp only [hnone]⟩

theorem head?_of_mem_fieldType {w : List Token} (h : w ∈ Phrase.fieldType) :
    w.head? = some (.punct .dot) ∨ ∃ name, w.head? = some (.ident name) := by
  rcases h with (⟨name, _, rfl⟩ | h) | h
  · exact .inr ⟨name, rfl⟩
  · exact .inl (head?_of_mem_token_mul h)
  · exact .inr (Phrase.head?_of_mem_dotted h.1)

/-! ### Fields -/

/-- The options of a field and its end, at each level at which it may have these options. -/
theorem reads_fieldEnd (type : TypeExpr) :
    Reads (fun r => {w | ∀ e, (∀ s ∈ r.1, MayHave e s) →
      w ∈ (1 + Phrase.settingList (Phrase.fieldSettingName e)) * Phrase.sign .semicolon})
      (fieldEnd type) := by
  intro c
  refine .peek ?_
  split
  · have hstop : ∀ list : List Setting, Reads
        (fun r : List Setting × Span => {w | w ∈ Phrase.sign .semicolon ∧ r.1 = list})
        (sign .semicolon >>= fun stop => pure (list, stop)) :=
      fun list => ((reads_sign .semicolon).andReturn fun _ => ⟨_, rfl⟩).and
        (.bind fun _ => gives_pure rfl)
    refine (reads_settingList _).bind hstop fun list r w hw e hall => ?_
    obtain ⟨u, hu, v, ⟨hv, rfl⟩, rfl⟩ := Language.mem_mul.mp hw
    exact Language.append_mem_mul (.inr (hu e hall)) hv
  · rename_i span h
    refine readsAt_advance_pure h fun e _ => ?_
    rw [add_mul, one_mul]
    exact .inl rfl
  · split
    · exact readsAt_report (reads_skipBlock.keeps.bind fun _ => keeps_fail)
    · exact reads_unexpected _ _
  · exact reads_unexpected _ _

/-- Whether a field may have this label, or none. -/
def LabelAllowed : Edition → Option FieldLabel → Prop
  | .proto2, label => label.isSome
  | .proto3, label => label ≠ some .required

theorem fieldFaults_eq_nil_iff {e : Edition} {f : Decl.Field} :
    fieldFaults e f = [] ↔ LabelAllowed e f.label ∧ ∀ s ∈ f.settings, MayHave e s := by
  cases e with
  | proto2 => cases hlabel : f.label <;> simp [fieldFaults, LabelAllowed, MayHave, hlabel]
  | proto3 =>
    have hdefault : f.default? = none ↔ ∀ s ∈ f.settings, MayHave .proto3 s := by
      simp [Decl.Field.default?, lastSetting?, MayHave]
    rw [← hdefault]
    cases h : f.default? <;> simp [fieldFaults, LabelAllowed, h]

theorem reads_reportAll (faults : List Fault) :
    Reads (fun _ => provided (faults = [])) (reportAll faults) := by
  intro c
  cases faults with
  | nil => exact .inl ⟨[], (), c, ⟨rfl, rfl⟩, by simp [reportAll], rfl, rfl⟩
  | cons fault faults => exact .inr (c.length_allFaults_lt (List.cons_ne_nil fault faults))

theorem reads_fieldAfter (e : Edition) (label : Option FieldLabel) (start : Span) :
    Reads (fun _ => Phrase.fieldType * Phrase.fieldEnd e * provided (LabelAllowed e label))
      (fieldAfter e label start) := by
  simp only [Phrase.fieldEnd, mul_assoc]
  refine .seq reads_fieldType fun type => .seq reads_ident fun name =>
    (reads_sign .equals).seq fun _ => .seq reads_positiveInt fun number => ?_
  refine (reads_fieldEnd type.1).bind
    (fun r => (reads_reportAll _).andReturn fun _ => ⟨_, rfl⟩) fun r f w hw => ?_
  obtain ⟨hw, hfaults⟩ := mem_mul_provided_iff.mp hw
  obtain ⟨hlabel, hsettings⟩ := fieldFaults_eq_nil_iff.mp hfaults
  rw [← mul_assoc]
  exact mem_mul_provided_iff.mpr ⟨hw e hsettings, hlabel⟩

theorem label_mul_le_fieldStart (e : Edition) :
    Phrase.label e * Phrase.fieldType ≤ Phrase.fieldStart e := by
  cases e with
  | proto2 => exact le_rfl
  | proto3 => exact fun _ h => .inl h

/-- The word for a label. -/
def labelWord : FieldLabel → String
  | .optional => "optional"
  | .required => "required"
  | .repeated => "repeated"

theorem mem_label_iff {e : Edition} {w : List Token} :
    w ∈ Phrase.label e ↔ ∃ label, LabelAllowed e (some label) ∧ w = [.ident (labelWord label)] := by
  constructor
  · intro h
    cases e with
    | proto2 =>
      rcases h with (rfl | rfl) | rfl
      · exact ⟨.optional, rfl, rfl⟩
      · exact ⟨.required, rfl, rfl⟩
      · exact ⟨.repeated, rfl, rfl⟩
    | proto3 =>
      rcases h with rfl | rfl
      · exact ⟨.optional, nofun, rfl⟩
      · exact ⟨.repeated, nofun, rfl⟩
  · intro h
    obtain ⟨label, hallowed, rfl⟩ := h
    cases e with
    | proto2 =>
      cases label with
      | optional => exact .inl (.inl rfl)
      | required => exact .inl (.inr rfl)
      | repeated => exact .inr rfl
    | proto3 =>
      cases label with
      | optional => exact .inl rfl
      | required => exact absurd rfl hallowed
      | repeated => exact .inr rfl

theorem mem_field_of_labelled {e : Edition} (label : FieldLabel) {w : List Token}
    (hw : w ∈ {[.ident (labelWord label)]} *
      (Phrase.fieldType * Phrase.fieldEnd e * provided (LabelAllowed e (some label)))) :
    w ∈ Phrase.fieldStart e * Phrase.fieldEnd e := by
  rw [← mul_assoc] at hw
  obtain ⟨hw, hlabel⟩ := mem_mul_provided_iff.mp hw
  rw [← mul_assoc] at hw
  obtain ⟨u, hu, v, hv, rfl⟩ := Language.mem_mul.mp hw
  obtain ⟨a, rfl, b, hb, rfl⟩ := Language.mem_mul.mp hu
  have hstart := Language.append_mem_mul (mem_label_iff.mpr ⟨label, hlabel, rfl⟩) hb
  exact Language.append_mem_mul (label_mul_le_fieldStart e hstart) hv

theorem nil_notMem_mul_fieldEnd (front : Language Token) (e : Edition) :
    [] ∉ front * Phrase.fieldEnd e := by
  rw [Phrase.fieldEnd, ← mul_assoc]
  exact nil_notMem_mul_token _ _

/-- A field without label does not start with one. -/
theorem mem_field_of_unlabelled {e : Edition} {w : List Token}
    (hw : w ∈ Phrase.fieldType * Phrase.fieldEnd e * provided (LabelAllowed e none))
    (hstart : w ∉ Phrase.startingWith Phrase.labelWords) :
    w ∈ Phrase.fieldStart e * Phrase.fieldEnd e := by
  obtain ⟨hw, hlabel⟩ := mem_mul_provided_iff.mp hw
  obtain ⟨u, hu, v, hv, rfl⟩ := Language.mem_mul.mp hw
  refine Language.append_mem_mul ?_ hv
  cases e with
  | proto2 => cases hlabel
  | proto3 =>
    refine .inr ⟨hu, fun h => hstart ?_⟩
    obtain ⟨name, hname, hhead⟩ := h
    exact ⟨name, hname, by rw [List.head?_append, hhead]; rfl⟩

theorem reads_field (e : Edition) :
    Reads (fun _ => Phrase.fieldStart e * Phrase.fieldEnd e) (field e) := by
  intro c
  rw [field, fieldLabel, bind_assoc]
  refine .peek ?_
  have hne : [] ∉ Phrase.fieldType * Phrase.fieldEnd e * provided (LabelAllowed e none) :=
    fun h => nil_notMem_mul_fieldEnd _ _ (mem_mul_provided_iff.mp h).1
  split
  · rename_i span h
    rw [bind_assoc]
    exact (reads_fieldAfter e (some .optional) span).advance h fun _ _ =>
      mem_field_of_labelled .optional
  · rename_i span h
    rw [bind_assoc]
    exact (reads_fieldAfter e (some .required) span).advance h fun _ _ =>
      mem_field_of_labelled .required
  · rename_i span h
    rw [bind_assoc]
    exact (reads_fieldAfter e (some .repeated) span).advance h fun _ _ =>
      mem_field_of_labelled .repeated
  · rename_i word span hoptional hrequired hrepeated h
    rw [pure_bind]
    refine ((reads_fieldAfter e none span).head h fun _ => hne).mono fun _ w hw =>
      mem_field_of_unlabelled hw.1 (Phrase.notMem_startingWith_of_ident hw.2 ?_)
    exact not_or.mpr ⟨hoptional, not_or.mpr ⟨hrequired, hrepeated⟩⟩
  · rename_i span h
    rw [pure_bind]
    exact ((reads_fieldAfter e none span).head h fun _ => hne).mono fun _ w hw =>
      mem_field_of_unlabelled hw.1 (Phrase.notMem_startingWith hw.2 nofun)
  · exact .inr ((reports_unexpected _).bind fun r => (reads_fieldAfter e r.1 r.2).keeps)

/-- The options of a field, which it may have, and its end. -/
theorem accepts_fieldEnd (e : Edition) (type : TypeExpr) :
    Accepts next ((1 + Phrase.settingList (Phrase.fieldSettingName e)) * Phrase.sign .semicolon)
      (fun r => ∀ s ∈ r.1, MayHave e s) (fieldEnd type) := by
  rw [add_mul, one_mul]
  have hlist : Accepts next
      (Phrase.settingList (Phrase.fieldSettingName e) * Phrase.sign .semicolon)
      (fun r : List Setting × Span => ∀ s ∈ r.1, MayHave e s)
      (settingList >>= fun list => sign .semicolon >>= fun stop => pure (list, stop)) :=
    (accepts_settingList e).seq fun _ hlist =>
      (accepts_sign .semicolon).andPure fun _ _ => hlist
  refine .add (.peekOnly fun span => ⟨([], span), nofun, rfl⟩) (.peekHead hlist fun v hv => ?_)
  simp only [Phrase.settingList, mul_assoc] at hv
  exact ⟨_, head?_of_mem_token_mul hv, fun _ => rfl⟩

theorem reportAll_nil : reportAll [] = pure () := by
  funext c
  simp [reportAll]
  rfl

theorem accepts_fieldAfter {e : Edition} {label : Option FieldLabel} (hlabel : LabelAllowed e label)
    (start : Span) :
    Accepts next (Phrase.fieldType * Phrase.fieldEnd e) Any (fieldAfter e label start) := by
  simp only [Phrase.fieldEnd, mul_assoc]
  refine .bind accepts_fieldType (fun type _ => .seq accepts_ident fun name _ =>
    (accepts_sign .equals).seq fun _ _ => .seq accepts_positiveInt fun number _ =>
      (accepts_fieldEnd e type.1).andReturn fun r hr => ?_) (leads_ident_mul _)
  let f : Decl.Field := ⟨label, type.1, type.2, name, number, r.1, start.join r.2⟩
  have hfaults : fieldFaults e f = [] := fieldFaults_eq_nil_iff.mpr ⟨hlabel, hr⟩
  refine ⟨f, trivial, ?_⟩
  show (reportAll (fieldFaults e f) >>= fun _ => pure f) = pure f
  rw [hfaults, reportAll_nil, pure_bind]

theorem accepts_labelledField {e : Edition} {label : FieldLabel}
    (hlabel : LabelAllowed e (some label)) :
    Accepts next (Phrase.keyword (labelWord label) * (Phrase.fieldType * Phrase.fieldEnd e)) Any
      (field e) := by
  rw [field, fieldLabel, bind_assoc]
  cases label with
  | optional => exact .peekToken (fun _ => bind_assoc ..) fun span => accepts_fieldAfter hlabel span
  | required => exact .peekToken (fun _ => bind_assoc ..) fun span => accepts_fieldAfter hlabel span
  | repeated => exact .peekToken (fun _ => bind_assoc ..) fun span => accepts_fieldAfter hlabel span

theorem accepts_unlabelledField :
    Accepts next ((Phrase.fieldType \ Phrase.startingWith Phrase.labelWords) *
      Phrase.fieldEnd .proto3) Any (field .proto3) := by
  rw [field, fieldLabel, bind_assoc]
  refine .peekWord fun w hw => ?_
  obtain ⟨u, ⟨hu, hstart⟩, v, _, rfl⟩ := Language.mem_mul.mp hw
  have hlabel : LabelAllowed .proto3 none := by simp [LabelAllowed]
  have hread : ∀ span, Accepts next ((Phrase.fieldType \ Phrase.startingWith Phrase.labelWords) *
      Phrase.fieldEnd .proto3) Any (fieldAfter .proto3 none span) :=
    fun span => (accepts_fieldAfter hlabel span).mono (mul_le_mul_left sdiff_le _)
  rcases head?_of_mem_fieldType hu with hhead | ⟨name, hhead⟩
  · refine ⟨.punct .dot, by rw [List.head?_append, hhead]; rfl, fun span => ?_⟩
    simp only [pure_bind]
    exact hread span
  · have hoptional : name ≠ "optional" := fun h => hstart ⟨name, .inl h, hhead⟩
    have hrequired : name ≠ "required" := fun h => hstart ⟨name, .inr (.inl h), hhead⟩
    have hrepeated : name ≠ "repeated" := fun h => hstart ⟨name, .inr (.inr h), hhead⟩
    refine ⟨.ident name, by rw [List.head?_append, hhead]; rfl, fun span => ?_⟩
    simp only [pure_bind]
    exact hread span

theorem accepts_field (e : Edition) :
    Accepts next (Phrase.fieldStart e * Phrase.fieldEnd e) Any (field e) := by
  have hlabelled : Accepts next (Phrase.label e * Phrase.fieldType * Phrase.fieldEnd e) Any
      (field e) := by
    refine .of_forall fun w hw => ?_
    rw [mul_assoc] at hw
    obtain ⟨u, hu, v, hv, rfl⟩ := Language.mem_mul.mp hw
    obtain ⟨label, hlabel, rfl⟩ := mem_label_iff.mp hu
    refine (accepts_labelledField hlabel).mono ?_
    rintro _ rfl
    exact Language.append_mem_mul (Set.mem_singleton _) hv
  cases e with
  | proto2 => exact hlabelled
  | proto3 =>
    rw [Phrase.fieldStart, add_mul]
    exact hlabelled.add accepts_unlabelledField

theorem head?_of_mem_field {e : Edition} {w : List Token}
    (h : w ∈ Phrase.fieldStart e * Phrase.fieldEnd e) :
    w.head? = some (.punct .dot) ∨ ∃ name, w.head? = some (.ident name) := by
  have hlabelled : ∀ u ∈ Phrase.label e * Phrase.fieldType,
      ∃ name, u.head? = some (.ident name) := by
    intro u hu
    obtain ⟨a, ha, b, _, rfl⟩ := Language.mem_mul.mp hu
    obtain ⟨label, _, rfl⟩ := mem_label_iff.mp ha
    exact ⟨labelWord label, rfl⟩
  have hstart : ∀ u ∈ Phrase.fieldStart e,
      u.head? = some (.punct .dot) ∨ ∃ name, u.head? = some (.ident name) := by
    intro u hu
    cases e with
    | proto2 => exact .inr (hlabelled u hu)
    | proto3 =>
      rcases hu with hu | hu
      · exact .inr (hlabelled u hu)
      · exact head?_of_mem_fieldType hu.1
  obtain ⟨u, hu, v, _, rfl⟩ := Language.mem_mul.mp h
  rw [List.head?_append]
  rcases hstart u hu with hhead | ⟨name, hhead⟩
  · exact .inl (by rw [hhead]; rfl)
  · exact .inr ⟨name, by rw [hhead]; rfl⟩

/-! ### Messages -/

theorem nil_notMem_messagePart (e : Edition) : [] ∉ Phrase.messagePart e := by
  intro h
  rcases h with (((h | h) | h) | h) | h
  · cases h
  · exact nil_notMem_mul_token _ _ h
  · exact nil_notMem_mul_token _ _ h
  · exact nil_notMem_mul_token _ _ h
  · exact nil_notMem_mul_fieldEnd _ _ h.1

theorem nil_notMem_message (e : Edition) : [] ∉ Phrase.message e := by
  rw [Phrase.message_eq]
  exact nil_notMem_mul_token _ _

theorem reads_messageRound (e : Edition) {nested : Parser Decl.Message} {inner : Language Token}
    (hnested : Reads (fun _ => inner) nested) (start : Span) (m : Decl.Message) :
    Reads (turnPhrases (Phrase.messagePart e + inner) (Phrase.sign .rightBrace))
      (messageRound e nested start m) := by
  intro c
  refine .peek ?_
  split
  · rename_i span h
    exact readsAt_advance_pure h rfl
  · rename_i span h
    exact readsAt_advance_pure h (.inl (.inl (.inl (.inl (.inl rfl)))))
  · exact (hnested _).andPure fun _ _ hv => .inr hv
  · exact (reads_enum _).andPure fun _ _ hv => .inl (.inl (.inl (.inl (.inr hv))))
  · exact (reads_settingStatement _).andPure fun _ _ hv => .inl (.inl (.inl (.inr hv)))
  · exact (reads_reserved _).andPure fun _ _ hv => .inl (.inl (.inr hv))
  · exact readsAt_report (reads_skipBlock.keeps.bind fun _ => keeps_pure _)
  · exact readsAt_report (reads_skipBlock.keeps.bind fun _ => keeps_pure _)
  · exact readsAt_report ((reads_skipTo _).keeps.bind fun _ =>
      (reads_accept _).keeps.bind fun _ => keeps_pure _)
  · rename_i word span hmessage henum hoption hreserved honeof hextend hextensions h
    refine ((reads_field e).head h fun _ => nil_notMem_mul_fieldEnd _ _).andPure
      fun _ v hv => .inl (.inr ⟨hv.1, Phrase.notMem_startingWith_of_ident hv.2 ?_⟩)
    simp only [Phrase.partWords, Set.mem_insert_iff, Set.mem_singleton_iff, not_or]
    exact ⟨hmessage, henum, hoption, hreserved, honeof, hextend, hextensions⟩
  · rename_i span h
    exact ((reads_field e).head h fun _ => nil_notMem_mul_fieldEnd _ _).andPure
      fun _ v hv => .inl (.inr ⟨hv.1, Phrase.notMem_startingWith hv.2 nofun⟩)
  · exact reads_unexpected _ _

theorem reads_messageBody (e : Edition) {nested : Parser Decl.Message} {inner : Language Token}
    (hnested : Reads (fun _ => inner) nested) (hne : [] ∉ inner) (start : Span) (name : Ident) :
    Reads (fun _ => (Phrase.messagePart e + inner)∗ * Phrase.sign .rightBrace)
      (messageBody e nested start name) :=
  Reads.loop_kstar (reads_messageRound e hnested start)
    (fun h => h.elim (nil_notMem_messagePart e) hne) _

theorem reads_messageUpTo (e : Edition) (depth : Nat) :
    Reads (fun _ => Phrase.message e) (messageUpTo e depth) := by
  induction depth with
  | zero => exact fun _ => .inr (reports_impossible _)
  | succ depth ih =>
    rw [Phrase.message_eq]
    simp only [Phrase.messageOver, mul_assoc]
    exact (reads_keyword "message").seq fun _ => .seq reads_ident fun _ =>
      (reads_sign .leftBrace).seq fun _ => reads_messageBody e ih (nil_notMem_message e) _ _

theorem reads_message (e : Edition) : Reads (fun _ => Phrase.message e) (message e) := by
  intro c
  rcases reads_messageUpTo e c.limit c with ⟨used, m, c', hmem, hpasses⟩ | hreports
  · exact .inl ⟨used, m, c', hmem, hpasses.run, hpasses.rest, hpasses.faults⟩
  · exact .inr hreports

theorem accepts_messageBody (e : Edition) {nested : Parser Decl.Message} {inner : Language Token}
    (hnested : Accepts Any inner Any nested)
    (hinner : ∀ v ∈ inner, v.head? = some (.ident "message")) (start : Span) (name : Ident) :
    Accepts next ((Phrase.messagePart e + inner)∗ * Phrase.sign .rightBrace) Any
      (messageBody e nested start name) := by
  have hne : [] ∉ inner := fun h => nomatch hinner [] h
  refine Accepts.loop_any (fun m => .add (.add (.add (.add (.add ?_ ?_) ?_) ?_) ?_) ?_)
    (fun m => .peekOnly fun _ => ⟨_, ⟨_, rfl, trivial⟩, rfl⟩)
    (fun h => h.elim (nil_notMem_messagePart e) hne) _
  · exact .peekOnly fun _ => ⟨_, ⟨_, rfl, trivial⟩, rfl⟩
  · exact .peekGoesOn accepts_enum fun v hv =>
      ⟨_, head?_of_mem_enum hv, fun _ => ⟨_, rfl, fun _ => trivial⟩⟩
  · exact .peekGoesOn accepts_settingStatement fun v hv =>
      ⟨_, head?_of_mem_settingStatement hv, fun _ => ⟨_, rfl, fun _ => trivial⟩⟩
  · exact .peekGoesOn accepts_reserved fun v hv =>
      ⟨_, head?_of_mem_reserved hv, fun _ => ⟨_, rfl, fun _ => trivial⟩⟩
  · refine .peekGoesOn ((accepts_field e).mono sdiff_le) fun v hv => ?_
    obtain ⟨hv, hstart⟩ := hv
    rcases head?_of_mem_field hv with hhead | ⟨word, hhead⟩
    · exact ⟨_, hhead, fun _ => ⟨_, rfl, fun _ => trivial⟩⟩
    · have hword : ∀ part ∈ Phrase.partWords, word ≠ part :=
        fun part hpart h => hstart ⟨part, hpart, h ▸ hhead⟩
      simp only [Phrase.partWords, Set.mem_insert_iff, Set.mem_singleton_iff, forall_eq_or_imp,
        forall_eq] at hword
      obtain ⟨hmessage, henum, hoption, hreserved, honeof, hextend, hextensions⟩ := hword
      refine ⟨_, hhead, fun _ => ⟨fun f => { m with fields := m.fields ++ [f] }, ?_,
        fun _ => trivial⟩⟩
      simp only
  · exact .peekGoesOn hnested fun v hv => ⟨_, hinner v hv, fun _ => ⟨_, rfl, fun _ => trivial⟩⟩

theorem head?_of_mem_message {e : Edition} {w : List Token} (h : w ∈ Phrase.message e) :
    w.head? = some (.ident "message") := by
  rw [Phrase.message_eq] at h
  simp only [Phrase.messageOver, mul_assoc] at h
  exact head?_of_mem_token_mul h

/-- The phrases of a language that are not longer than this. -/
def shortPhrases (phrases : Language Token) (bound : Nat) : Language Token :=
  {w | w ∈ phrases ∧ w.length ≤ bound}

theorem mem_kstar_add_short {phrases inner : Language Token} {w : List Token}
    (h : w ∈ (phrases + inner)∗) : w ∈ (phrases + shortPhrases inner w.length)∗ := by
  obtain ⟨parts, rfl, hparts⟩ := Language.mem_kstar.mp h
  refine Language.join_mem_kstar fun part hpart => ?_
  rcases hparts part hpart with h | h
  · exact .inl h
  · exact .inr ⟨h, (List.sublist_flatten_of_mem hpart).length_le⟩

/-- The messages in a message are shorter than it. -/
theorem mem_messageOver_short {e : Edition} {inner : Language Token} {w : List Token} {bound : Nat}
    (h : w ∈ Phrase.messageOver e inner) (hlength : w.length ≤ bound + 1) :
    w ∈ Phrase.messageOver e (shortPhrases inner bound) := by
  obtain ⟨u, hu, _, rfl, rfl⟩ := Language.mem_mul.mp h
  obtain ⟨head, hhead, parts, hparts, rfl⟩ := Language.mem_mul.mp hu
  have hshort : (Phrase.messagePart e + shortPhrases inner parts.length)∗ ≤
      (Phrase.messagePart e + shortPhrases inner bound)∗ := by
    refine kstar_mono (add_le_add_right (fun v hv => ⟨hv.1, hv.2.trans ?_⟩) _)
    simp only [List.length_append, List.length_singleton] at hlength
    omega
  have hparts := hshort (mem_kstar_add_short hparts)
  exact Language.append_mem_mul (Language.append_mem_mul hhead hparts) (Set.mem_singleton _)

theorem accepts_messageUpTo (e : Edition) (depth : Nat) :
    Accepts next (shortPhrases (Phrase.message e) depth) Any (messageUpTo e depth) := by
  induction depth generalizing next with
  | zero =>
    -- No phrase is that short.
    intro c used rest _ hmem _
    have hnil := List.length_eq_zero_iff.mp (Nat.le_zero.mp hmem.2)
    exact absurd (hnil ▸ hmem.1) (nil_notMem_message e)
  | succ depth ih =>
    have hle : shortPhrases (Phrase.message e) (depth + 1) ≤
        Phrase.messageOver e (shortPhrases (Phrase.message e) depth) :=
      fun w hw => mem_messageOver_short (Phrase.message_eq e ▸ hw.1) hw.2
    refine Accepts.mono ?_ hle
    simp only [Phrase.messageOver, mul_assoc]
    exact (accepts_keyword "message").seq fun _ _ => .seq accepts_ident fun _ _ =>
      (accepts_sign .leftBrace).seq fun _ _ =>
        accepts_messageBody e ih (fun v hv => head?_of_mem_message hv.1) _ _

theorem accepts_message (e : Edition) : Accepts next (Phrase.message e) Any (message e) := by
  intro c used rest hc hmem hnext
  have hlength : (tokens used).length ≤ c.limit := by
    have hlimit := c.length_rest_lt
    rw [hc, List.length_append] at hlimit
    rw [tokens, List.length_map]
    omega
  obtain ⟨m, c', hm, hpasses⟩ := accepts_messageUpTo e c.limit c used rest hc ⟨hmem, hlength⟩ hnext
  exact ⟨m, c', hm, hpasses.run, hpasses.rest, hpasses.faults⟩

end Protobuf.Grammar

import Protobuf.Proofs.Source.Blocks
import Protobuf.Proofs.Source.AcceptanceLaws

/-! Names, constants and options.

For each parser, the phrases that it reads and those that it accepts. Where the value matters later,
the language depends on it: whether a field may have an option depends on the name that was read. A
name must not be followed by a dot, and neither may a constant, which may be a name. -/
namespace Protobuf.Grammar
open Decl Protobuf.Parser
open scoped Computability

variable {next : Option Token → Prop}

/-! ### Names -/

theorem reads_sign (p : Punct) : Reads (fun _ => Phrase.sign p) (sign p) :=
  reads_expect _

theorem reads_keyword (name : String) : Reads (fun _ => Phrase.keyword name) (keyword name) :=
  reads_expect _

theorem reads_ident : Reads (fun _ => Phrase.ident) ident := by
  intro c
  refine .peek ?_
  split
  · rename_i name span h
    exact readsAt_advance_pure h ⟨name, rfl⟩
  · exact reads_unexpected _ _

theorem reads_dottedFrom (first : Ident) :
    Reads (fun _ => (Phrase.sign .dot * Phrase.ident)∗) (dottedFrom first) := by
  rw [← mul_one (Phrase.sign .dot * Phrase.ident)∗]
  refine Reads.loop_kstar (fun d => ?_) (nil_notMem_token_mul _ _) _
  exact Reads.ifAccept (.andPure reads_ident fun _ => le_rfl) fun _ => readsAt_pure rfl

theorem reads_dotted : Reads (fun _ => Phrase.dotted) dotted :=
  .seq reads_ident reads_dottedFrom

theorem reads_typeRef : Reads (fun _ => Phrase.typeName) typeRef := by
  rw [Phrase.typeName, add_mul, one_mul]
  intro c
  refine .peek ?_
  split
  · rename_i span h
    exact (reads_dotted.andReturn fun _ => ⟨_, rfl⟩).advance h fun _ _ hv => .inr hv
  · exact (reads_dotted _).andPure fun _ _ hv => .inl hv
  · exact reads_unexpected _ _

/-- What may follow a name. -/
def NotDot (t : Option Token) : Prop :=
  t ≠ some (.punct .dot)

theorem accepts_sign (p : Punct) : Accepts next (Phrase.sign p) Any (sign p) :=
  accepts_expect _

theorem accepts_keyword (name : String) : Accepts next (Phrase.keyword name) Any (keyword name) :=
  accepts_expect _

theorem accepts_ident : Accepts next Phrase.ident Any ident := by
  refine .peekEach fun v hv => ?_
  obtain ⟨name, rfl⟩ := hv
  exact ⟨_, rfl, fun span => ⟨⟨name, span⟩, trivial, rfl⟩⟩

theorem accepts_dottedFrom (first : Ident) :
    Accepts NotDot (Phrase.sign .dot * Phrase.ident)∗ Any (dottedFrom first) := by
  rw [← mul_one (Phrase.sign .dot * Phrase.ident)∗]
  refine Accepts.loop_any (fun d => ?_) (fun d => ?_) (nil_notMem_token_mul _ _) _
  · exact Accepts.ifAccept (.andPure accepts_ident fun part _ => ⟨_, rfl, trivial⟩)
  · exact Accepts.ifNotAccept (fun _ h => h) ⟨d, rfl, trivial⟩

theorem accepts_dotted : Accepts NotDot Phrase.dotted Any dotted :=
  .seq accepts_ident fun first _ => accepts_dottedFrom first

theorem accepts_typeRef : Accepts NotDot Phrase.typeName Any typeRef := by
  rw [Phrase.typeName, add_mul, one_mul]
  have hname : Accepts NotDot Phrase.dotted Any
      (dotted >>= fun name => pure (⟨none, name⟩ : TypeRef)) :=
    .andPure accepts_dotted fun _ _ => trivial
  refine .add (.peekHead hname fun v hv => ?_)
    (.peekToken (fun _ => rfl) fun span => .andPure accepts_dotted fun _ _ => trivial)
  obtain ⟨name, hname⟩ := Phrase.head?_of_mem_dotted hv
  exact ⟨_, hname, fun _ => rfl⟩

/-! ### Literals -/

theorem reads_string : Reads (fun r => Phrase.textThat (· = r.1)) string := by
  intro c
  refine .peek ?_
  split
  · rename_i bytes span h
    cases hdecode : Utf8.decode? bytes with
    | some text => exact readsAt_advance_pure h ⟨bytes, text, hdecode, rfl, rfl⟩
    | none => exact .inr (.advance (fun _ => (reports_report _).bind fun _ => keeps_pure _) h)
  · exact reads_unexpected _ _

theorem reads_text : Reads (fun _ => Phrase.text) string := by
  refine .mono reads_string fun r w hw => ?_
  obtain ⟨content, value, hdecode, _, rfl⟩ := hw
  exact ⟨content, value, hdecode, trivial, rfl⟩

theorem reads_positiveInt : Reads (fun _ => Phrase.unsigned) positiveInt := by
  intro c
  refine .peek ?_
  split
  · rename_i value span h
    exact readsAt_advance_pure h ⟨value, rfl⟩
  · exact reads_unexpected _ _

theorem reads_intAfter (minus : Option Span) :
    Reads (fun _ => Phrase.unsigned) (intAfter minus) := by
  intro c
  refine .peek ?_
  split
  · rename_i value span h
    exact readsAt_advance_pure h ⟨value, rfl⟩
  · exact reads_unexpected _ _

theorem reads_int : Reads (fun _ => Phrase.integer) int := by
  rw [Phrase.integer, add_mul, one_mul]
  intro c
  refine .peek ?_
  split
  · rename_i span h
    exact (reads_intAfter _).advance h fun _ _ hv => .inr hv
  · exact (reads_intAfter _ _).mono fun _ _ hv => .inl hv

theorem accepts_string (property : String → Prop) :
    Accepts next (Phrase.textThat property) (fun r => property r.1) string := by
  refine .peekEach fun v hv => ?_
  obtain ⟨content, value, hdecode, hvalue, rfl⟩ := hv
  exact ⟨_, rfl, fun span => ⟨(value, span), hvalue, by simp only [hdecode]⟩⟩

theorem accepts_positiveInt : Accepts next Phrase.unsigned Any positiveInt := by
  refine .peekEach fun v hv => ?_
  obtain ⟨value, rfl⟩ := hv
  exact ⟨_, rfl, fun span => ⟨_, trivial, rfl⟩⟩

theorem accepts_intAfter (minus : Option Span) :
    Accepts next Phrase.unsigned Any (intAfter minus) := by
  refine .peekEach fun v hv => ?_
  obtain ⟨value, rfl⟩ := hv
  exact ⟨_, rfl, fun span => ⟨_, trivial, rfl⟩⟩

theorem accepts_int : Accepts next Phrase.integer Any int := by
  rw [Phrase.integer, add_mul, one_mul]
  refine .add (.peekHead (accepts_intAfter none) fun v hv => ?_)
    (.peekToken (fun _ => rfl) fun span => accepts_intAfter (some span))
  obtain ⟨value, rfl⟩ := hv
  exact ⟨_, rfl, fun _ => rfl⟩

/-! ### Constants -/

theorem reads_signedNumber (negative : Bool) :
    Reads (fun _ => Phrase.number) (signedNumber negative) := by
  intro c
  refine .peek ?_
  split
  · rename_i value span h
    exact readsAt_advance_pure h (.inl (.inl (.inl ⟨value, rfl⟩)))
  · rename_i bits span h
    exact readsAt_advance_pure h (.inl (.inl (.inr ⟨bits, rfl⟩)))
  · rename_i span h
    exact readsAt_advance_pure h (.inl (.inr rfl))
  · rename_i span h
    exact readsAt_advance_pure h (.inr rfl)
  · exact reads_unexpected _ _

theorem reads_constant : Reads (fun _ => Phrase.constant) constant := by
  rw [Phrase.constant, add_mul, add_mul, one_mul]
  intro c
  refine .peek ?_
  split
  · exact (reads_dotted _).andPure fun _ _ hv => .inl (.inl hv)
  · rename_i start h
    exact ((reads_signedNumber false).andReturn fun _ => ⟨_, rfl⟩).advance h
      fun _ _ hv => .inl (.inr (.inl (.inr hv)))
  · rename_i start h
    exact ((reads_signedNumber true).andReturn fun _ => ⟨_, rfl⟩).advance h
      fun _ _ hv => .inl (.inr (.inr hv))
  · exact (reads_signedNumber false _).mono fun _ _ hv => .inl (.inr (.inl (.inl hv)))
  · exact (reads_signedNumber false _).mono fun _ _ hv => .inl (.inr (.inl (.inl hv)))
  · rename_i bytes span h
    exact readsAt_advance_pure h (.inr ⟨bytes, rfl⟩)
  · exact reads_unexpected _ _

theorem accepts_signedNumber (negative : Bool) :
    Accepts next Phrase.number Any (signedNumber negative) := by
  refine .peekEach fun v hv => ?_
  rcases hv with ((⟨value, rfl⟩ | ⟨bits, rfl⟩) | rfl) | rfl
  · exact ⟨_, rfl, fun span => ⟨_, trivial, rfl⟩⟩
  · exact ⟨_, rfl, fun span => ⟨_, trivial, rfl⟩⟩
  · exact ⟨_, rfl, fun span => ⟨_, trivial, rfl⟩⟩
  · exact ⟨_, rfl, fun span => ⟨_, trivial, rfl⟩⟩

theorem accepts_constant : Accepts NotDot Phrase.constant Any constant := by
  rw [Phrase.constant, add_mul, add_mul, one_mul]
  have hword : Accepts NotDot Phrase.dotted Any constant := by
    have hname : Accepts NotDot Phrase.dotted Any
        (dotted >>= fun name => pure (wordConstant name.text, name.span)) :=
      .andPure accepts_dotted fun _ _ => trivial
    refine .peekHead hname fun v hv => ?_
    obtain ⟨name, hname⟩ := Phrase.head?_of_mem_dotted hv
    exact ⟨_, hname, fun _ => rfl⟩
  have hkeyword : ∀ name, Phrase.keyword name ≤ Phrase.dotted := by
    intro name v hv
    cases Set.mem_singleton_iff.mp hv
    have hname : [.ident name] ∈ Phrase.ident := ⟨name, rfl⟩
    exact Language.append_mem_mul hname (Language.nil_mem_kstar _)
  have hunsigned : Accepts NotDot Phrase.unsigned Any constant := by
    refine .peekHead ((accepts_signedNumber false).mono fun v hv => .inl (.inl (.inl hv))) ?_
    intro v hv
    obtain ⟨value, rfl⟩ := hv
    exact ⟨_, rfl, fun _ => rfl⟩
  have hfloat : Accepts NotDot Phrase.float Any constant := by
    refine .peekHead ((accepts_signedNumber false).mono fun v hv => .inl (.inl (.inr hv))) ?_
    intro v hv
    obtain ⟨bits, rfl⟩ := hv
    exact ⟨_, rfl, fun _ => rfl⟩
  have hnumber : Accepts NotDot Phrase.number Any constant :=
    ((hunsigned.add hfloat).add (hword.mono (hkeyword _))).add (hword.mono (hkeyword _))
  have hplus : Accepts NotDot (Phrase.sign .plus * Phrase.number) Any constant :=
    .peekToken (fun _ => rfl) fun _ => (accepts_signedNumber false).andPure fun _ _ => trivial
  have hminus : Accepts NotDot (Phrase.sign .minus * Phrase.number) Any constant :=
    .peekToken (fun _ => rfl) fun _ => (accepts_signedNumber true).andPure fun _ _ => trivial
  have hbytes : Accepts NotDot Phrase.bytes Any constant := by
    refine .peekEach fun v hv => ?_
    obtain ⟨content, rfl⟩ := hv
    exact ⟨_, rfl, fun span => ⟨_, trivial, rfl⟩⟩
  exact (hword.add ((hnumber.add hplus).add hminus)).add hbytes

/-! ### The names of options -/

theorem ne_default_of_mem {name : String} (c : Char) (hc : c ∉ "default".toList)
    (h : c ∈ name.toList) : name ≠ "default" :=
  fun heq => hc (heq ▸ h)

/-- Only the plain word is read as the name `default`. -/
theorem reads_settingPart :
    Reads (fun part => {w | w ∈ Phrase.settingPart ∧
      (w = [.ident "default"] ↔ part.1 = "default")}) settingPart := by
  intro c
  refine .peek ?_
  split
  · rename_i start h
    have hread := reads_typeRef.seq fun type => (reads_sign .rightParen).andReturn
      (f := fun stop => pure ("(" ++ type.text ++ ")", start.join stop)) fun _ => ⟨_, rfl⟩
    have hname : Gives (fun part => part.1 ≠ "default") (typeRef >>= fun type =>
        sign .rightParen >>= fun stop => pure ("(" ++ type.text ++ ")", start.join stop)) :=
      .bind fun _ => .bind fun _ => gives_pure (ne_default_of_mem '(' (by decide) (by simp))
    refine (hread.and hname).advance h fun part w hw => ?_
    obtain ⟨u, rfl, v, ⟨hv, hne⟩, rfl⟩ := Language.mem_mul.mp hw
    refine ⟨.inr ?_, by simp [hne]⟩
    rw [mul_assoc]
    exact Language.append_mem_mul rfl hv
  · rename_i name span h
    exact readsAt_advance_pure h ⟨.inl ⟨name, rfl⟩, by simp⟩
  · exact reads_unexpected _ _

/-- The rounds of an option's name: more parts, after which it is not `default`, and the end. -/
def settingNameTurns (name : String × Span) :
    Turn (String × Span) (String × Span) → Language Token
  | .again more => {w | w ∈ Phrase.sign .dot * Phrase.settingPart ∧ more.1 ≠ "default"}
  | .done whole => {w | w ∈ Phrase.sign .equals ∧ whole.1 = name.1}

theorem reads_settingNameFrom (first : String × Span) :
    Reads (fun name => {w | Rounds settingNameTurns first w name}) (settingNameFrom first) := by
  refine Reads.loop (fun name ws => .peek ?_) (fun _ _ h => nil_notMem_token_mul _ _ h.1) first
  split
  · rename_i h
    have hread := reads_settingPart.mono fun _ _ hw => hw.1
    refine ((hread.andReturn fun _ => ⟨_, rfl⟩).and (show Gives (fun turn => ∃ more,
      turn = .again more ∧ more.1 ≠ "default") _ from ?_)).advance h fun turn w hw => ?_
    · exact .bind fun _ => gives_pure ⟨_, rfl, ne_default_of_mem '.' (by decide) (by simp)⟩
    · obtain ⟨u, rfl, v, ⟨hv, more, rfl, hmore⟩, rfl⟩ := Language.mem_mul.mp hw
      exact ⟨Language.append_mem_mul rfl hv, hmore⟩
  · rename_i h
    exact readsAt_advance_pure h ⟨rfl, rfl⟩
  · exact reads_unexpected _ _

theorem mem_of_settingNameTurns {first name : String × Span} {w : List Token}
    (h : Rounds settingNameTurns first w name) :
    w ∈ Phrase.sign .equals ∧ name.1 = first.1 ∨
      w ∈ Phrase.sign .dot * Phrase.settingPart *
        ((Phrase.sign .dot * Phrase.settingPart)∗ * Phrase.sign .equals) ∧
        name.1 ≠ "default" := by
  induction h with
  | done h => exact .inl h
  | again hw _ ih =>
    obtain ⟨hw, hmore⟩ := hw
    rcases ih with ⟨hv, hname⟩ | ⟨hv, hname⟩
    · exact .inr ⟨Language.append_mem_mul hw (mem_kstar_mul _ hv), hname ▸ hmore⟩
    · obtain ⟨a, ha, b, hb, rfl⟩ := Language.mem_mul.mp hv
      exact .inr ⟨Language.append_mem_mul hw (append_mem_kstar_mul ha hb), hname⟩

/-- Only the plain word is read as the name `default`, however the name goes on. -/
theorem reads_settingName :
    Reads (fun name => {w | w ∈ Phrase.settingName * Phrase.sign .equals ∧
      (w = [.ident "default", .punct .equals] ↔ name.1 = "default")}) settingName := by
  refine .bind reads_settingPart reads_settingNameFrom fun part name w hw => ?_
  obtain ⟨u, ⟨hu, hdefault⟩, v, hv, rfl⟩ := Language.mem_mul.mp hw
  rcases mem_of_settingNameTurns hv with ⟨hv, hname⟩ | ⟨hv, hname⟩
  · have hword : u ∈ Phrase.settingName := by
      rw [← List.append_nil u]
      exact Language.append_mem_mul hu (Language.nil_mem_kstar _)
    refine ⟨Language.append_mem_mul hword hv, ?_⟩
    rw [hname, ← hdefault, Set.mem_singleton_iff.mp hv]
    show u ++ [.punct .equals] = [.ident "default"] ++ [.punct .equals] ↔ _
    exact List.append_left_inj _
  · obtain ⟨a, ha, b, hb, rfl⟩ := Language.mem_mul.mp hv
    constructor
    · obtain ⟨c, hc, d, hd, rfl⟩ := Language.mem_mul.mp hb
      rw [← List.append_assoc a, ← List.append_assoc u]
      exact Language.append_mem_mul (Language.append_mem_mul hu (append_mem_kstar ha hc)) hd
    · -- There is a dot in it.
      obtain ⟨_, rfl, a, _, rfl⟩ := Language.mem_mul.mp ha
      refine iff_of_false (fun h => ?_) hname
      have hdot : Token.punct .dot ∈ u ++ ([.punct .dot] ++ a ++ b) := by simp
      rw [h] at hdot
      simp at hdot

theorem accepts_settingPart : Accepts next Phrase.settingPart Any settingPart := by
  rw [Phrase.settingPart, mul_assoc]
  refine .add (.peekEach fun v hv => ?_) (.peekToken (fun _ => rfl) fun span => accepts_typeRef.bind
    (fun type _ => (accepts_sign .rightParen).andPure fun _ _ => trivial) (leads_token nofun))
  obtain ⟨name, rfl⟩ := hv
  exact ⟨_, rfl, fun span => ⟨_, trivial, rfl⟩⟩

theorem accepts_settingNameFrom (first : String × Span) :
    Accepts next ((Phrase.sign .dot * Phrase.settingPart)∗ * Phrase.sign .equals) Any
      (settingNameFrom first) :=
  Accepts.loop_any
    (fun _ => .peekToken (fun _ => rfl) fun _ => accepts_settingPart.andPure
      fun _ _ => ⟨_, rfl, trivial⟩)
    (fun _ => .peekOnly fun _ => ⟨_, ⟨_, rfl, trivial⟩, rfl⟩) (nil_notMem_token_mul _ _) first

/-- A name that a field may have is read as one. -/
theorem accepts_settingName (e : Edition) :
    Accepts next (Phrase.fieldSettingName e * Phrase.sign .equals)
      (fun name => e = .proto3 → name.1 ≠ "default") settingName := by
  have hname : Accepts next (Phrase.settingName * Phrase.sign .equals) Any settingName := by
    rw [Phrase.settingName, mul_assoc]
    exact .seq accepts_settingPart fun first _ => accepts_settingNameFrom first
  cases e with
  | proto2 => exact hname.imp fun _ _ h => nomatch h
  | proto3 =>
    have hle : Phrase.fieldSettingName .proto3 * Phrase.sign .equals ≤
        Phrase.settingName * Phrase.sign .equals := mul_le_mul_left sdiff_le _
    refine (hname.mono hle).and_reads reads_settingName fun w hw name hread _ hdefault => ?_
    obtain ⟨u, ⟨_, hu⟩, v, hv, rfl⟩ := Language.mem_mul.mp hw
    cases Set.mem_singleton_iff.mp hv
    exact hu (List.append_cancel_right (hread.2.mpr hdefault))

/-! ### Options -/

/-- Whether a field may have this option. -/
def MayHave (e : Edition) (s : Setting) : Prop :=
  e = .proto3 → s.name ≠ "default"

/-- The phrases of an option, at each level at which a field may have it. -/
def settingPhrases (s : Setting) : Language Token :=
  {w | ∀ e, MayHave e s → w ∈ Phrase.setting (Phrase.fieldSettingName e)}

theorem reads_setting : Reads settingPhrases setting := by
  have hvalue : ∀ name : String × Span, Reads
      (fun s : Setting => {w | w ∈ Phrase.constant ∧ s.name = name.1})
      (constant >>= fun value => pure ⟨name.1, name.2, value.1, value.2⟩) :=
    fun name => (reads_constant.andReturn fun _ => ⟨_, rfl⟩).and
      (.bind fun _ => gives_pure rfl)
  refine .bind reads_settingName hvalue fun name s w hw e he => ?_
  obtain ⟨u, ⟨hu, hdefault⟩, v, ⟨hv, hname⟩, rfl⟩ := Language.mem_mul.mp hw
  obtain ⟨a, ha, b, rfl, rfl⟩ := Language.mem_mul.mp hu
  refine Language.append_mem_mul (Language.append_mem_mul ?_ rfl) hv
  cases e with
  | proto2 => exact ha
  | proto3 =>
    refine ⟨ha, fun h => he rfl (hname.trans (hdefault.mp ?_))⟩
    rw [Set.mem_singleton_iff.mp h]
    rfl

theorem reads_plainSetting : Reads (fun _ => Phrase.setting Phrase.settingName) setting :=
  .mono reads_setting fun _ _ hw => hw .proto2 nofun

theorem reads_settingStatement : Reads (fun _ => Phrase.settingStatement) settingStatement := by
  rw [Phrase.settingStatement, mul_assoc]
  exact (reads_keyword "option").seq fun _ => .seq reads_plainSetting fun _ =>
    (reads_sign .semicolon).andReturn fun _ => ⟨_, rfl⟩

/-- The rounds of a list of options: one more, and the end. -/
def settingListTurns (list : List Setting) : Turn (List Setting) (List Setting) → Language Token
  | .again more => {w | ∃ s, more = list ++ [s] ∧ w ∈ Phrase.sign .comma * settingPhrases s}
  | .done whole => {w | w ∈ Phrase.sign .rightBracket ∧ whole = list}

theorem reads_settingListRound (list : List Setting) :
    Reads (settingListTurns list) (settingListRound list) := by
  intro c
  refine .peek ?_
  split
  · rename_i h
    have hread : Reads (fun turn => {w | ∃ s, turn = .again (list ++ [s]) ∧ w ∈ settingPhrases s})
        (setting >>= fun next => pure (Turn.again (list ++ [next]) : Turn _ (List Setting))) :=
      .andPure reads_setting fun s w hw => ⟨s, rfl, hw⟩
    refine hread.advance h fun turn w hw => ?_
    obtain ⟨u, rfl, v, ⟨s, rfl, hv⟩, rfl⟩ := Language.mem_mul.mp hw
    exact ⟨s, rfl, Language.append_mem_mul rfl hv⟩
  · rename_i h
    exact readsAt_advance_pure h ⟨rfl, rfl⟩
  · exact reads_unexpected _ _

theorem reads_settingListFrom (first : Setting) :
    Reads (fun list => {w | Rounds settingListTurns [first] w list}) (settingListFrom first) := by
  refine Reads.loop reads_settingListRound ?_ [first]
  intro list more h
  obtain ⟨s, _, h⟩ := h
  exact nil_notMem_token_mul _ _ h

theorem mem_of_settingListTurns {list whole : List Setting} {w : List Token} (e : Edition)
    (h : Rounds settingListTurns list w whole) : list ⊆ whole ∧
      ((∀ s ∈ whole, MayHave e s) →
        w ∈ (Phrase.sign .comma * Phrase.setting (Phrase.fieldSettingName e))∗ *
          Phrase.sign .rightBracket) := by
  induction h with
  | done h =>
    obtain ⟨hw, rfl⟩ := h
    exact ⟨List.Subset.refl _, fun _ => mem_kstar_mul _ hw⟩
  | again hw _ ih =>
    obtain ⟨s, rfl, hw⟩ := hw
    obtain ⟨u, hu, v, hv, rfl⟩ := Language.mem_mul.mp hw
    refine ⟨fun x hx => ih.1 (List.mem_append_left _ hx), fun hall => ?_⟩
    have hs := hv e (hall s (ih.1 (by simp)))
    exact append_mem_kstar_mul (Language.append_mem_mul hu hs) (ih.2 hall)

theorem reads_settingList :
    Reads (fun list => {w | ∀ e, (∀ s ∈ list, MayHave e s) →
      w ∈ Phrase.settingList (Phrase.fieldSettingName e)}) settingList := by
  have hlist : Reads (fun list => {w | ∀ e, (∀ s ∈ list, MayHave e s) →
      w ∈ Phrase.commaList (Phrase.setting (Phrase.fieldSettingName e)) *
        Phrase.sign .rightBracket}) (setting >>= settingListFrom) := by
    refine .bind reads_setting reads_settingListFrom fun first list w hw e hall => ?_
    obtain ⟨u, hu, v, hv, rfl⟩ := Language.mem_mul.mp hw
    obtain ⟨hfirst, hv⟩ := mem_of_settingListTurns e hv
    rw [Phrase.commaList, mul_assoc]
    exact Language.append_mem_mul (hu e (hall first (hfirst List.mem_cons_self))) (hv hall)
  refine (reads_sign .leftBracket).bind (fun _ => hlist) fun _ list w hw e hall => ?_
  obtain ⟨u, hu, v, hv, rfl⟩ := Language.mem_mul.mp hw
  rw [Phrase.settingList, mul_assoc]
  exact Language.append_mem_mul hu (hv e hall)

theorem reads_plainSettingList :
    Reads (fun _ => Phrase.settingList Phrase.settingName) settingList :=
  .mono reads_settingList fun _ _ hw => hw .proto2 fun _ _ => nofun

theorem accepts_setting (e : Edition) :
    Accepts NotDot (Phrase.setting (Phrase.fieldSettingName e)) (MayHave e) setting :=
  (accepts_settingName e).seq fun _ hname =>
    .andPure accepts_constant fun _ _ => hname

theorem accepts_settingStatement :
    Accepts next Phrase.settingStatement Any settingStatement := by
  rw [Phrase.settingStatement, mul_assoc]
  exact (accepts_keyword "option").seq fun _ _ => (accepts_setting .proto2).bind
    (fun _ _ => (accepts_sign .semicolon).andPure fun _ _ => trivial) (leads_token nofun)

theorem accepts_settingListFrom {e : Edition} {first : Setting} (hfirst : MayHave e first) :
    Accepts next ((Phrase.sign .comma * Phrase.setting (Phrase.fieldSettingName e))∗ *
      Phrase.sign .rightBracket) (fun list => ∀ s ∈ list, MayHave e s) (settingListFrom first) := by
  refine Accepts.loop (fun list => ∀ s ∈ list, MayHave e s) NotDot (fun list hlist => ?_)
    (fun list hlist => ?_) (nil_notMem_token_mul _ _) ?_ ?_ ?_
  · refine .peekToken (fun _ => rfl) fun _ =>
      (accepts_setting e).andPure fun s hs => ⟨_, rfl, fun x hx => ?_⟩
    rcases List.mem_append.mp hx with hx | hx
    · exact hlist x hx
    · cases List.mem_singleton.mp hx
      exact hs
  · exact .peekOnly fun _ => ⟨_, ⟨list, rfl, hlist⟩, rfl⟩
  · exact leads_token_mul nofun
  · exact leads_token nofun
  · intro s hs
    cases List.mem_singleton.mp hs
    exact hfirst

theorem accepts_settingList (e : Edition) :
    Accepts next (Phrase.settingList (Phrase.fieldSettingName e))
      (fun list => ∀ s ∈ list, MayHave e s) settingList := by
  simp only [Phrase.settingList, Phrase.commaList, mul_assoc]
  exact (accepts_sign .leftBracket).seq fun _ _ => (accepts_setting e).bind
    (fun first hfirst => accepts_settingListFrom hfirst)
    (.kstar_mul (leads_token_mul nofun) (nil_notMem_token_mul _ _) (leads_token nofun))

theorem head?_of_mem_settingStatement {w : List Token} (h : w ∈ Phrase.settingStatement) :
    w.head? = some (.ident "option") := by
  rw [Phrase.settingStatement, mul_assoc] at h
  exact head?_of_mem_token_mul h

end Protobuf.Grammar

import Protobuf.Proofs.Source.Exactness

/-! The braces of a file that is parsed.

All phrases of the grammar are balanced: enums and messages close the braces that they open, and no
other phrase has any. What is left are services, which are passed over. One that has a block is
balanced as well. One that has none is accepted if a brace that closes nothing follows, and this is
the only way in which a file that is parsed can fail to be balanced.

`parse_braces`: such a file is balanced if and only if it has no service of that kind. Every brace
that it opens is closed in any case. -/
namespace Protobuf.Phrase
open Decl
open scoped Computability

/-! ### Balanced phrases -/

def balanced : Language Token :=
  {w | Balanced w}

theorem Balanced.append {v w : List Token} (hv : Balanced v) (hw : Balanced w) :
    Balanced (v ++ w) :=
  balanced_iff_closes.mpr ((balanced_iff_closes.mp hv).append (balanced_iff_closes.mp hw))

section Rules
variable {a b : Language Token}

theorem plain_le_balanced : plain ≤ balanced :=
  fun _ hw => balanced_iff_closes.mpr (closes_of_mem_plain hw)

theorem one_le_balanced : 1 ≤ balanced := by
  intro w hw
  cases (Language.mem_one w).mp hw
  exact plain_le_balanced nil_mem_plain

theorem mul_le_balanced (ha : a ≤ balanced) (hb : b ≤ balanced) : a * b ≤ balanced := by
  intro w hw
  obtain ⟨u, hu, v, hv, rfl⟩ := Language.mem_mul.mp hw
  exact (ha hu).append (hb hv)

theorem kstar_le_balanced (ha : a ≤ balanced) : a∗ ≤ balanced :=
  kstar_le_of_mul_le_left one_le_balanced (mul_le_balanced le_rfl ha)

/-- What stands between braces, and what stands before them. -/
theorem braces_le_balanced (ha : a ≤ balanced) (hb : b ≤ balanced) :
    a * sign .leftBrace * b * sign .rightBrace ≤ balanced := by
  have hblock : sign .leftBrace * (b * sign .rightBrace) ≤ balanced := by
    intro w hw
    obtain ⟨u, rfl, v, hv, rfl⟩ := Language.mem_mul.mp hw
    obtain ⟨body, hbody, v, rfl, rfl⟩ := Language.mem_mul.mp hv
    have hclosed := (balanced_iff_closes.mp (hb hbody)).append closes_nil.rightBrace
    exact balanced_iff_closes.mpr hclosed.leftBrace
  rw [mul_assoc, mul_assoc]
  exact mul_le_balanced ha hblock

theorem token_mem_balanced {t : Token} (hleft : t ≠ .punct .leftBrace)
    (hright : t ≠ .punct .rightBrace) : [t] ∈ balanced := by
  refine plain_le_balanced ⟨fun h => hleft ?_, fun h => hright ?_⟩
  · exact (List.mem_singleton.mp h).symm
  · exact (List.mem_singleton.mp h).symm

/-- Whether a sign is a brace. -/
def isBrace : Punct → Bool
  | .leftBrace | .rightBrace => true
  | _ => false

theorem sign_le_balanced {p : Punct} (h : isBrace p = false) : sign p ≤ balanced := by
  intro w hw
  cases hw
  refine token_mem_balanced (fun hleft => ?_) fun hright => ?_
  · cases hleft
    cases h
  · cases hright
    cases h

theorem keyword_le_balanced (name : String) : keyword name ≤ balanced := by
  intro w hw
  cases hw
  exact token_mem_balanced nofun nofun

theorem ident_le_balanced : ident ≤ balanced := by
  intro w hw
  obtain ⟨name, rfl⟩ := hw
  exact token_mem_balanced nofun nofun

theorem unsigned_le_balanced : unsigned ≤ balanced := by
  intro w hw
  obtain ⟨value, rfl⟩ := hw
  exact token_mem_balanced nofun nofun

theorem float_le_balanced : float ≤ balanced := by
  intro w hw
  obtain ⟨bits, rfl⟩ := hw
  exact token_mem_balanced nofun nofun

theorem bytes_le_balanced : bytes ≤ balanced := by
  intro w hw
  obtain ⟨content, rfl⟩ := hw
  exact token_mem_balanced nofun nofun

theorem textThat_le_balanced (property : String → Prop) : textThat property ≤ balanced := by
  intro w hw
  obtain ⟨content, value, _, _, rfl⟩ := hw
  exact token_mem_balanced nofun nofun

theorem commaList_le_balanced (ha : a ≤ balanced) : commaList a ≤ balanced :=
  mul_le_balanced ha (kstar_le_balanced (mul_le_balanced (sign_le_balanced rfl) ha))

end Rules

/-! ### Names, numbers and options -/

theorem dotted_le_balanced : dotted ≤ balanced :=
  mul_le_balanced ident_le_balanced
    (kstar_le_balanced (mul_le_balanced (sign_le_balanced rfl) ident_le_balanced))

theorem typeName_le_balanced : typeName ≤ balanced :=
  mul_le_balanced (add_le one_le_balanced (sign_le_balanced rfl)) dotted_le_balanced

theorem integer_le_balanced : integer ≤ balanced :=
  mul_le_balanced (add_le one_le_balanced (sign_le_balanced rfl)) unsigned_le_balanced

theorem number_le_balanced : number ≤ balanced :=
  add_le (add_le (add_le unsigned_le_balanced float_le_balanced) (keyword_le_balanced _))
    (keyword_le_balanced _)

theorem constant_le_balanced : constant ≤ balanced := by
  have hsign : 1 + sign .plus + sign .minus ≤ balanced :=
    add_le (add_le one_le_balanced (sign_le_balanced rfl)) (sign_le_balanced rfl)
  exact add_le (add_le dotted_le_balanced (mul_le_balanced hsign number_le_balanced))
    bytes_le_balanced

theorem settingPart_le_balanced : settingPart ≤ balanced := by
  have hopen : sign .leftParen * typeName ≤ balanced :=
    mul_le_balanced (sign_le_balanced rfl) typeName_le_balanced
  exact add_le ident_le_balanced (mul_le_balanced hopen (sign_le_balanced rfl))

theorem settingName_le_balanced : settingName ≤ balanced :=
  mul_le_balanced settingPart_le_balanced
    (kstar_le_balanced (mul_le_balanced (sign_le_balanced rfl) settingPart_le_balanced))

theorem fieldSettingName_le_balanced (e : Edition) : fieldSettingName e ≤ balanced := by
  cases e with
  | proto2 => exact settingName_le_balanced
  | proto3 => exact sdiff_le.trans settingName_le_balanced

theorem setting_le_balanced {name : Language Token} (h : name ≤ balanced) :
    setting name ≤ balanced :=
  mul_le_balanced (mul_le_balanced h (sign_le_balanced rfl)) constant_le_balanced

theorem settingStatement_le_balanced : settingStatement ≤ balanced :=
  mul_le_balanced
    (mul_le_balanced (keyword_le_balanced _) (setting_le_balanced settingName_le_balanced))
    (sign_le_balanced rfl)

theorem settingList_le_balanced {name : Language Token} (h : name ≤ balanced) :
    settingList name ≤ balanced :=
  mul_le_balanced
    (mul_le_balanced (sign_le_balanced rfl)
      (commaList_le_balanced (setting_le_balanced h)))
    (sign_le_balanced rfl)

/-! ### Enums -/

theorem reserved_le_balanced : reserved ≤ balanced := by
  have hlast : 1 + keyword "to" * (keyword "max" + integer) ≤ balanced :=
    add_le one_le_balanced (mul_le_balanced (keyword_le_balanced _)
      (add_le (keyword_le_balanced _) integer_le_balanced))
  have hranges : commaList reservedRange ≤ balanced :=
    commaList_le_balanced (mul_le_balanced integer_le_balanced hlast)
  have hitems : commaList reservedRange + commaList text ≤ balanced :=
    add_le hranges (commaList_le_balanced (textThat_le_balanced _))
  exact mul_le_balanced (mul_le_balanced (keyword_le_balanced _) hitems)
    (sign_le_balanced rfl)

theorem enumValue_le_balanced : enumValue ≤ balanced := by
  have hnumber : ident * sign .equals * integer ≤ balanced :=
    mul_le_balanced (mul_le_balanced ident_le_balanced (sign_le_balanced rfl))
      integer_le_balanced
  have hsettings : 1 + settingList settingName ≤ balanced :=
    add_le one_le_balanced (settingList_le_balanced settingName_le_balanced)
  exact sdiff_le.trans
    (mul_le_balanced (mul_le_balanced hnumber hsettings) (sign_le_balanced rfl))

theorem enumPart_le_balanced : enumPart ≤ balanced :=
  add_le (add_le (add_le (sign_le_balanced rfl) settingStatement_le_balanced)
    reserved_le_balanced) enumValue_le_balanced

theorem enum_le_balanced : enum ≤ balanced :=
  braces_le_balanced (mul_le_balanced (keyword_le_balanced _) ident_le_balanced)
    (kstar_le_balanced enumPart_le_balanced)

/-! ### Messages -/

theorem fieldType_le_balanced : fieldType ≤ balanced := by
  have hscalar : scalar ≤ balanced := by
    intro w hw
    obtain ⟨name, _, rfl⟩ := hw
    exact token_mem_balanced nofun nofun
  exact add_le (add_le hscalar (mul_le_balanced (sign_le_balanced rfl) dotted_le_balanced))
    (sdiff_le.trans dotted_le_balanced)

theorem fieldEnd_le_balanced (e : Edition) : fieldEnd e ≤ balanced := by
  have hnumber : ident * sign .equals * unsigned ≤ balanced :=
    mul_le_balanced (mul_le_balanced ident_le_balanced (sign_le_balanced rfl))
      unsigned_le_balanced
  have hsettings : 1 + settingList (fieldSettingName e) ≤ balanced :=
    add_le one_le_balanced (settingList_le_balanced (fieldSettingName_le_balanced e))
  exact mul_le_balanced (mul_le_balanced hnumber hsettings) (sign_le_balanced rfl)

theorem label_le_balanced (e : Edition) : label e ≤ balanced := by
  cases e with
  | proto2 =>
    exact add_le (add_le (keyword_le_balanced _) (keyword_le_balanced _)) (keyword_le_balanced _)
  | proto3 => exact add_le (keyword_le_balanced _) (keyword_le_balanced _)

theorem fieldStart_le_balanced (e : Edition) : fieldStart e ≤ balanced := by
  have hlabelled : label e * fieldType ≤ balanced :=
    mul_le_balanced (label_le_balanced e) fieldType_le_balanced
  cases e with
  | proto2 => exact hlabelled
  | proto3 => exact add_le hlabelled (sdiff_le.trans fieldType_le_balanced)

theorem messagePart_le_balanced (e : Edition) : messagePart e ≤ balanced := by
  have hfield : field e ≤ balanced :=
    sdiff_le.trans (mul_le_balanced (fieldStart_le_balanced e) (fieldEnd_le_balanced e))
  exact add_le (add_le (add_le (add_le (sign_le_balanced rfl) enum_le_balanced)
    settingStatement_le_balanced) reserved_le_balanced) hfield

/-- Messages are balanced, since the messages in them are. -/
theorem message_le_balanced (e : Edition) : message e ≤ balanced :=
  OrderHom.lfp_le ⟨messageOver e, messageOver_monotone e⟩
    (braces_le_balanced (mul_le_balanced (keyword_le_balanced _) ident_le_balanced)
      (kstar_le_balanced (add_le (messagePart_le_balanced e) le_rfl)))

/-! ### Files -/

theorem package_le_balanced : package ≤ balanced :=
  mul_le_balanced (mul_le_balanced (keyword_le_balanced _) dotted_le_balanced)
    (sign_le_balanced rfl)

theorem statement_le_balanced (e : Edition) : statement e ≤ balanced := by
  have hkind : 1 + keyword "public" + keyword "weak" ≤ balanced :=
    add_le (add_le one_le_balanced (keyword_le_balanced _)) (keyword_le_balanced _)
  have himport : importStatement ≤ balanced :=
    mul_le_balanced (mul_le_balanced (mul_le_balanced (keyword_le_balanced _) hkind)
      (textThat_le_balanced _)) (sign_le_balanced rfl)
  exact add_le (add_le (add_le (add_le (sign_le_balanced rfl) himport)
    settingStatement_le_balanced) (message_le_balanced e)) enum_le_balanced

theorem heading_le_balanced (e : Edition) : heading e ≤ balanced :=
  mul_le_balanced (mul_le_balanced (mul_le_balanced (keyword_le_balanced _)
    (sign_le_balanced rfl)) (textThat_le_balanced _)) (sign_le_balanced rfl)

theorem opened_le_balanced : opened ≤ balanced := by
  have hblock : sign .leftBrace * inside ≤ balanced := by
    intro w hw
    obtain ⟨u, rfl, v, hv, rfl⟩ := Language.mem_mul.mp hw
    exact balanced_iff_closes.mpr (Closes.leftBrace hv)
  exact mul_le_balanced plain_le_balanced hblock

theorem service_le_balanced {block : Language Token} (h : block ≤ balanced) :
    service block ≤ balanced :=
  mul_le_balanced (keyword_le_balanced _) (mul_le_balanced ident_le_balanced h)

/-- A service without a block has one brace, which closes nothing. -/
theorem count_of_mem_unopened {w : List Token} (h : w ∈ service unopened) :
    w.count (.punct .leftBrace) = 0 ∧ w.count (.punct .rightBrace) = 1 := by
  obtain ⟨_, rfl, rest, hrest, rfl⟩ := Language.mem_mul.mp h
  obtain ⟨_, ⟨name, rfl⟩, block, hblock, rfl⟩ := Language.mem_mul.mp hrest
  obtain ⟨skipped, hplain, _, rfl, rfl⟩ := Language.mem_mul.mp hblock
  have hleft : skipped.count (.punct .leftBrace) = 0 := List.count_eq_zero.mpr hplain.1
  have hright : skipped.count (.punct .rightBrace) = 0 := List.count_eq_zero.mpr hplain.2
  simp [List.count_append, hleft, hright]

/-! ### Parts of a file -/

/-- What a file consists of, apart from its heading. -/
def filePart (e : Edition) : Language Token :=
  statement e + package + service (opened + unopened)

/-- Balanced tokens, or a service without a block. -/
def Part (w : List Token) : Prop :=
  Balanced w ∨ w ∈ service unopened

theorem part_of_mem_filePart {e : Edition} {w : List Token} (h : w ∈ filePart e) : Part w := by
  rw [filePart, service, mul_add, mul_add] at h
  rcases h with (h | h) | h | h
  · exact .inl (statement_le_balanced e h)
  · exact .inl (package_le_balanced h)
  · exact .inl (service_le_balanced opened_le_balanced h)
  · exact .inr h

/-- A service without a block is not balanced. -/
theorem Part.balanced_iff {w : List Token} (h : Part w) :
    Balanced w ↔ w ∉ service unopened := by
  refine ⟨fun hbalanced hservice => ?_, fun hnot => h.resolve_right hnot⟩
  have hcounts := count_of_mem_unopened hservice
  have htotal := hbalanced.2
  omega

/-- Every brace that is opened is closed later on. -/
def ClosesAll (w : List Token) : Prop :=
  ∀ v, v <:+ w → v.count (.punct .leftBrace) ≤ v.count (.punct .rightBrace)

theorem Part.closesAll {w : List Token} (h : Part w) : ClosesAll w := by
  intro v hv
  rcases h with ⟨hfront, htotal⟩ | hservice
  · -- What the tokens in front leave open is closed behind them.
    obtain ⟨u, rfl⟩ := hv
    have hfront := hfront u (List.prefix_append u v)
    simp only [List.count_append] at htotal
    omega
  · have hnone : v.count (.punct .leftBrace) ≤ w.count (.punct .leftBrace) := hv.sublist.count_le _
    rw [(count_of_mem_unopened hservice).1] at hnone
    omega

theorem ClosesAll.append {v w : List Token} (hv : ClosesAll v) (hw : ClosesAll w) :
    ClosesAll (v ++ w) := by
  intro u hu
  rcases List.suffix_or_suffix_of_suffix hu (List.suffix_append v w) with hback | ⟨u, rfl⟩
  · exact hw u hback
  · have hfront := hv u (List.suffix_append_self_iff.mp hu)
    have hback := hw w (List.suffix_refl w)
    simp only [List.count_append]
    omega

theorem closesAll_flatten {parts : List (List Token)} (h : ∀ part ∈ parts, Part part) :
    ClosesAll parts.flatten := by
  induction parts with
  | nil =>
    intro v hv
    rw [List.suffix_nil.mp hv]
    exact Nat.le.refl
  | cons part parts ih =>
    have hparts := ih fun other hother => h other (List.mem_cons_of_mem part hother)
    exact (h part List.mem_cons_self).closesAll.append hparts

theorem balanced_flatten_iff {parts : List (List Token)} (h : ∀ part ∈ parts, Part part) :
    Balanced parts.flatten ↔ ∀ part ∈ parts, part ∉ service unopened := by
  constructor
  · intro hbalanced part hpart hservice
    -- The parts before and behind close at least as many braces as they open.
    obtain ⟨front, back, rfl⟩ := List.append_of_mem hpart
    have hfront := closesAll_flatten fun other hother => h other (List.mem_append_left _ hother)
    have hback := closesAll_flatten fun other hother =>
      h other (List.mem_append_right _ (List.mem_cons_of_mem part hother))
    have hfront := hfront _ (List.suffix_refl _)
    have hback := hback _ (List.suffix_refl _)
    have hcounts := count_of_mem_unopened hservice
    have htotal := hbalanced.2
    simp only [List.flatten_append, List.flatten_cons, List.count_append] at htotal
    omega
  · intro hnone
    have hall : ∀ part ∈ parts, part ∈ balanced :=
      fun part hpart => (h part hpart).balanced_iff.mpr (hnone part hpart)
    exact kstar_le_balanced le_rfl (Language.mem_kstar.mpr ⟨parts, rfl, hall⟩)

end Protobuf.Phrase

namespace Protobuf.Grammar
open Decl Protobuf.Parser

/-- The rounds of a file are its parts. -/
theorem exists_parts {f g : File} {w : List Token} (h : Rounds statementTurns f w g) :
    ∃ parts : List (List Token), w = parts.flatten ∧
      ∀ part ∈ parts, part ∈ Phrase.filePart f.edition := by
  induction h with
  | @done f g w hw => exact ⟨[], (Language.mem_one w).mp hw, nofun⟩
  | @again f next g w v hw _ ih =>
    obtain ⟨hedition, hw⟩ := hw
    obtain ⟨parts, rfl, hparts⟩ := ih
    rw [hedition] at hparts
    refine ⟨w :: parts, rfl, fun part hpart => ?_⟩
    rcases List.mem_cons.mp hpart with rfl | hpart
    · rcases hw with ⟨hstatement | hservice, _⟩ | ⟨hpackage, _⟩
      · exact .inl (.inl hstatement)
      · exact .inr hservice
      · exact .inl (.inr hpackage)
    · exact hparts part hpart

/-- The words of a text that is parsed are a heading, if it has one, and parts. -/
theorem exists_parts_of_parse {name text : String} {f : File} (h : parse name text = .ok f) :
    ∃ e head, ∃ parts : List (List Token),
      tokens (words (Lexer.scan text)) = head ++ parts.flatten ∧
        (head = [] ∨ head ∈ Phrase.heading e) ∧ ∀ part ∈ parts, part ∈ Phrase.filePart e := by
  obtain ⟨_, c, hrun, hnone⟩ := file_of_parse h
  have hfaults : (file (.start text)).2.allFaults = [] := by rw [hrun, hnone]
  obtain ⟨_, g, level, head, rest, htokens, hhead, hrounds⟩ :=
    mem_of_faults_nil reads_rounds hfaults
  obtain ⟨parts, rfl, hparts⟩ := exists_parts hrounds
  refine ⟨level, head, parts, htokens, ?_, hparts⟩
  rcases hhead with hhead | ⟨rfl, _⟩
  · exact .inr hhead
  · exact .inl rfl

/-- **Which files that are parsed have balanced braces.** Such a file is a heading, if it has one,
and parts. All of them are balanced, apart from the services without a block, which end with a brace
that closes nothing. So every brace that is opened is closed, and the file is balanced if and only
if it has no such service. -/
theorem parse_braces {name text : String} {f : File} (h : parse name text = .ok f) :
    ∃ e head, ∃ parts : List (List Token),
      tokens (words (Lexer.scan text)) = head ++ parts.flatten ∧
      (head = [] ∨ head ∈ Phrase.heading e) ∧ (∀ part ∈ parts, part ∈ Phrase.filePart e) ∧
      (∀ part ∈ parts, Phrase.Balanced part ↔ part ∉ Phrase.service Phrase.unopened) ∧
      Phrase.ClosesAll (tokens (words (Lexer.scan text))) ∧
      (Phrase.Balanced (tokens (words (Lexer.scan text))) ↔
        ∀ part ∈ parts, part ∉ Phrase.service Phrase.unopened) := by
  obtain ⟨e, head, parts, htokens, hhead, hparts⟩ := exists_parts_of_parse h
  have hpart : ∀ part ∈ parts, Phrase.Part part :=
    fun part hpart => Phrase.part_of_mem_filePart (hparts part hpart)
  have hbalanced : Phrase.Balanced head := by
    rcases hhead with rfl | hhead
    · exact Phrase.one_le_balanced rfl
    · exact Phrase.heading_le_balanced e hhead
  -- The heading is one more part, and no service.
  have hall : ∀ part ∈ head :: parts, Phrase.Part part :=
    List.forall_mem_cons.mpr ⟨.inl hbalanced, hpart⟩
  have hnot : head ∉ Phrase.service Phrase.unopened :=
    (hall head List.mem_cons_self).balanced_iff.mp hbalanced
  refine ⟨e, head, parts, htokens, hhead, hparts, fun part h => (hpart part h).balanced_iff, ?_, ?_⟩
  · rw [htokens, ← List.flatten_cons]
    exact Phrase.closesAll_flatten hall
  · rw [htokens, ← List.flatten_cons, Phrase.balanced_flatten_iff hall, List.forall_mem_cons]
    exact and_iff_right hnot

/-- A service without a block, and one with a block after a message. -/
def servicesText : String :=
  "service S \x7d message M \x7b enum E \x7b A = 0; \x7d \x7d service T \x7b rpc \x7b \x7d \x7d"

theorem parse_braces_services : (∃ f, parse "services.proto" servicesText = .ok f) ∧
    ∃ e head, ∃ parts : List (List Token),
      tokens (words (Lexer.scan servicesText)) = head ++ parts.flatten ∧
      (∀ part ∈ parts, part ∈ Phrase.filePart e) ∧
      Phrase.ClosesAll (tokens (words (Lexer.scan servicesText))) ∧
      ∃ part ∈ parts, part ∈ Phrase.service Phrase.unopened := by
  have hparsed : ∃ f, parse "services.proto" servicesText = .ok f :=
    (exists_parse_iff _ _).mpr (by decide +kernel)
  have hnot : ¬Phrase.Balanced (tokens (words (Lexer.scan servicesText))) :=
    fun hbalanced => absurd hbalanced.2 (by decide +kernel)
  obtain ⟨f, hf⟩ := hparsed
  obtain ⟨e, head, parts, htokens, _, hparts, _, hcloses, hiff⟩ := parse_braces hf
  refine ⟨⟨f, hf⟩, e, head, parts, htokens, hparts, hcloses, ?_⟩
  by_contra hnone
  exact hnot (hiff.mpr fun part hpart hservice => hnone ⟨part, hpart, hservice⟩)

/-- A file is parsed although its only brace closes nothing. -/
theorem unopened_service_parsed : (∃ f, parse "service.proto" "service S \x7d" = .ok f) ∧
    ¬Phrase.Balanced (tokens (words (Lexer.scan "service S \x7d"))) := by
  have htokens : tokens (words (Lexer.scan "service S \x7d")) =
      [.ident "service", .ident "S", .punct .rightBrace] := by decide +kernel
  refine ⟨(exists_parse_iff _ _).mpr (by decide +kernel), fun hbalanced => ?_⟩
  rw [htokens] at hbalanced
  exact absurd hbalanced.2 (by decide)

end Protobuf.Grammar

import Protobuf.Proofs.Source.Files
import Protobuf.Proofs.Source.RecoveryLaws

/-! Reading goes on after a fault.

All parsers of the grammar are orderly. After each fault reading goes on at a later word, so that a
file is read to the end of its text, whatever that is (`file_runs`). -/
namespace Protobuf

namespace Grammar
open Decl Protobuf.Parser

/-! ### Names and literals -/

theorem orderly_ident : Orderly Any ident := by
  intro c
  refine .peek ?_
  split
  · exact .advance ‹_› (orderly_pure id)
  · exact orderly_unexpected _ _

theorem orderly_dottedFrom (first : Ident) : Orderly Never (dottedFrom first) := by
  refine orderly_loop (fun d => (orderly_accept _).andThen fun taken => ?_) _
  split
  · exact .bind orderly_ident fun _ => orderly_pure id
  · exact orderly_pure nofun

theorem orderly_dotted : Orderly Any dotted :=
  .bind orderly_ident orderly_dottedFrom

theorem orderly_typeRef : Orderly Any typeRef := by
  intro c
  refine .peek ?_
  split
  · exact .advance ‹_› (.bind orderly_dotted fun _ => orderly_pure id)
  · exact Orderly.bind orderly_dotted (fun _ => orderly_pure id) _
  · exact orderly_unexpected _ _

/-- Here is the one lexical fault that a parser adds: it is about the string that comes next. -/
theorem orderly_string : Orderly Any string := by
  intro c
  refine .peek ?_
  split
  · rename_i bytes span hw
    cases hbytes : Utf8.decode? bytes with
    | some text => exact .advance hw (orderly_pure id)
    | none =>
      have hproper : Proper c.rest (.invalidUtf8 span) :=
        ⟨rfl, fun _ => ⟨bytes, span, List.mem_of_mem_head? hw, hbytes, rfl⟩⟩
      exact .advanceReport hw hproper (orderly_pure id)
  · exact orderly_unexpected _ _

theorem orderly_positiveInt : Orderly Any positiveInt := by
  intro c
  refine .peek ?_
  split
  · exact .advance ‹_› (orderly_pure id)
  · exact orderly_unexpected _ _

theorem orderly_intAfter (minus : Option Span) : Orderly Any (intAfter minus) := by
  intro c
  refine .peek ?_
  split
  · exact .advance ‹_› (orderly_pure id)
  · exact orderly_unexpected _ _

theorem orderly_int : Orderly Any int := by
  intro c
  refine .peek ?_
  split
  · exact .advance ‹_› ((orderly_intAfter _).imp fun _ => False.elim)
  · exact orderly_intAfter _ _

/-! ### Options -/

theorem orderly_signedNumber (negative : Bool) : Orderly Any (signedNumber negative) := by
  intro c
  refine .peek ?_
  split
  · exact .advance ‹_› (orderly_pure id)
  · exact .advance ‹_› (orderly_pure id)
  · exact .advance ‹_› (orderly_pure id)
  · exact .advance ‹_› (orderly_pure id)
  · exact orderly_unexpected _ _

theorem orderly_constant : Orderly Any constant := by
  intro c
  refine .peek ?_
  split
  · exact Orderly.bind orderly_dotted (fun _ => orderly_pure id) _
  · exact .advance ‹_› ((orderly_signedNumber _).bind fun _ => orderly_pure id)
  · exact .advance ‹_› ((orderly_signedNumber _).bind fun _ => orderly_pure id)
  · exact orderly_signedNumber _ _
  · exact orderly_signedNumber _ _
  · exact .advance ‹_› (orderly_pure id)
  · exact orderly_unexpected _ _

theorem orderly_settingPart : Orderly Any settingPart := by
  intro c
  refine .peek ?_
  split
  · exact .advance ‹_›
      (.bind orderly_typeRef fun _ => (orderly_sign _).bind fun _ => orderly_pure id)
  · exact .advance ‹_› (orderly_pure id)
  · exact orderly_unexpected _ _

theorem orderly_settingNameFrom (first : String × Span) :
    Orderly Never (settingNameFrom first) := by
  refine orderly_loop (fun _ c => .peek ?_) _
  split
  · exact .advance ‹_› (.bind orderly_settingPart fun _ => orderly_pure id)
  · exact .advance ‹_› (orderly_pure id)
  · exact orderly_unexpected _ _

theorem orderly_setting : Orderly Any setting :=
  .bind (.bind orderly_settingPart orderly_settingNameFrom) fun _ =>
    .bind orderly_constant fun _ => orderly_pure id

theorem begins_settingStatement : Begins "option" settingStatement :=
  .keyword _ fun _ => .bind orderly_setting fun _ =>
    (orderly_sign _).bind fun _ => orderly_pure id

theorem orderly_settingListRound (list : List Setting) : Orderly Any (settingListRound list) := by
  intro c
  refine .peek ?_
  split
  · exact .advance ‹_› (.bind orderly_setting fun _ => orderly_pure id)
  · exact .advance ‹_› (orderly_pure id)
  · exact orderly_unexpected _ _

theorem orderly_settingList : Orderly Any settingList :=
  (orderly_sign _).bind fun _ => .bind orderly_setting fun first =>
    orderly_loop (fun list => (orderly_settingListRound list).imp fun _ _ => trivial) [first]

/-! ### Reserved numbers and names -/

theorem orderly_rangeLast : Orderly Any rangeLast := by
  intro c
  refine .peek ?_
  split
  · exact .advance ‹_› (orderly_pure id)
  · exact Orderly.bind orderly_int (fun _ => orderly_pure id) _

theorem orderly_reservedRange : Orderly Any reservedRange := by
  refine .bind orderly_int fun first c => .peek ?_
  split
  · exact .advance ‹_› (.bind orderly_rangeLast fun _ => orderly_pure id)
  · exact orderly_pure id _
  · exact orderly_pure id _
  · exact orderly_unexpected _ _

theorem orderly_commaList {α : Type} {item : Parser α} (h : Orderly Any item) :
    Orderly Never (commaList item) := by
  refine orderly_loop (fun _ => h.bind fun _ => (orderly_accept _).andThen fun taken => ?_) _
  split
  · exact orderly_pure id
  · exact orderly_pure id

theorem orderly_reservedName : Orderly Any reservedName :=
  .bind orderly_string fun _ => orderly_pure id

theorem orderly_reservedItems : Orderly Never reservedItems := by
  intro c
  refine .peek ?_
  split
  · exact (orderly_commaList orderly_reservedRange).andThen (fun _ => orderly_pure id) _
  · exact (orderly_commaList orderly_reservedRange).andThen (fun _ => orderly_pure id) _
  · exact (orderly_commaList orderly_reservedName).andThen (fun _ => orderly_pure id) _
  · exact orderly_unexpected _ _

theorem orderly_reserved : Orderly Any reserved :=
  (orderly_keyword _).bind fun _ => .andThen orderly_reservedItems fun _ =>
    (orderly_sign _).bind fun _ => orderly_pure id

/-! ### Enums -/

theorem orderly_enumValueSettings : Orderly Never enumValueSettings := by
  intro c
  refine .peek ?_
  split
  · exact orderly_pure id _
  · exact Orderly.imp orderly_settingList (fun _ => False.elim) _
  · exact orderly_unexpected _ _

theorem orderly_enumValue : Orderly Any enumValue :=
  .bind orderly_ident fun _ => (orderly_sign _).bind fun _ => .bind orderly_int fun _ =>
    .andThen orderly_enumValueSettings fun _ => (orderly_sign _).bind fun _ => orderly_pure id

theorem orderly_enumRound (start : Span) (e : Decl.Enum) : Orderly Any (enumRound start e) := by
  intro c
  refine .peek ?_
  split
  · exact Begins.bind begins_settingStatement (fun _ => orderly_pure id) _
  · exact Orderly.bind orderly_reserved (fun _ => orderly_pure id) _
  · exact .advance ‹_› (orderly_pure id)
  · exact Orderly.bind orderly_enumValue (fun _ => orderly_pure id) _
  · exact .advance ‹_› (orderly_pure id)
  · exact orderly_unexpected _ _

theorem begins_enum : Begins "enum" enum :=
  .keyword _ fun start => .bind orderly_ident fun _ => (orderly_sign _).bind fun _ =>
    orderly_loop (fun e => (orderly_enumRound start e).imp fun _ _ => trivial) _

/-! ### Messages -/

theorem orderly_typeAfterMap (span : Span) : Orderly Never (typeAfterMap span) := by
  intro c
  refine .peek ?_
  split
  · exact Orderly.report rfl rfl orderly_fail _
  · exact (orderly_dottedFrom _).andThen (fun _ => orderly_pure id) _

theorem orderly_fieldType : Orderly Any fieldType := by
  intro c
  refine .peek ?_
  split
  · exact .advance ‹_› (orderly_typeAfterMap _)
  · split
    · exact .advance ‹_› (orderly_pure id)
    · exact Orderly.bind orderly_typeRef (fun _ => orderly_pure id) _
  · exact Orderly.bind orderly_typeRef (fun _ => orderly_pure id) _
  · exact orderly_unexpected _ _

theorem orderly_fieldLabel : Orderly Never fieldLabel := by
  intro c
  refine .peek ?_
  split
  · exact .advance ‹_› (orderly_pure id)
  · exact .advance ‹_› (orderly_pure id)
  · exact .advance ‹_› (orderly_pure id)
  · exact orderly_pure id _
  · exact orderly_pure id _
  · exact orderly_unexpected _ _

theorem orderly_fieldEnd (type : TypeExpr) : Orderly Any (fieldEnd type) := by
  intro c
  refine .peek ?_
  split
  · exact Orderly.bind orderly_settingList
      (fun _ => (orderly_sign _).bind fun _ => orderly_pure id) _
  · exact .advance ‹_› (orderly_pure id)
  · split
    · exact Orderly.report rfl rfl (.andThen orderly_skipBlock fun _ => orderly_fail) _
    · exact orderly_unexpected _ _
  · exact orderly_unexpected _ _

/-- A language level has nothing against single tokens. -/
theorem proper_of_mem_fieldFaults {e : Edition} {f : Decl.Field} {ws : List Word} {fault : Fault}
    (h : fault ∈ fieldFaults e f) : Proper ws fault := by
  have hkind : fault.isInternal = false ∧ fault.isLexical = false := by
    unfold fieldFaults at h
    grind [Fault.isInternal, Fault.isLexical]
  exact proper_of_not hkind.1 hkind.2

theorem orderly_reportAll {faults : List Fault} (h : ∀ ws, ∀ fault ∈ faults, Proper ws fault) :
    Orderly Never (reportAll faults) :=
  fun c => ⟨List.suffix_rfl, ⟨faults, c.allFaults_record faults, h c.rest⟩, fun _ _ => False.elim⟩

theorem orderly_field (e : Edition) : Orderly Any (field e) :=
  .andThen orderly_fieldLabel fun _ => .bind orderly_fieldType fun type =>
    .bind orderly_ident fun _ => (orderly_sign _).bind fun _ => .bind orderly_positiveInt fun _ =>
      (orderly_fieldEnd type.1).bind fun _ =>
        (orderly_reportAll fun _ _ => proper_of_mem_fieldFaults).andThen fun _ => orderly_pure id

theorem orderlyAt_messageRound {e : Edition} {nested : Parser Decl.Message} {c : Cursor}
    (hnested : OrderlyAt Any nested c.look) (start : Span) (m : Decl.Message) :
    OrderlyAt Any (messageRound e nested start m) c := by
  refine .peek ?_
  split
  · exact .advance ‹_› (orderly_pure id)
  · exact .advance ‹_› (orderly_pure id)
  · exact hnested.first fun _ _ _ => orderly_pure id _
  · exact Begins.bind begins_enum (fun _ => orderly_pure id) _
  · exact Begins.bind begins_settingStatement (fun _ => orderly_pure id) _
  · exact Orderly.bind orderly_reserved (fun _ => orderly_pure id) _
  · exact .report (proper_of_not rfl rfl)
      (.first (orderlyAt_skipBlock ‹_› c.look_rest) fun _ _ _ => orderly_pure id _)
  · exact .report (proper_of_not rfl rfl)
      (.first (orderlyAt_skipBlock ‹_› c.look_rest) fun _ _ _ => orderly_pure id _)
  · exact .report (proper_of_not rfl rfl)
      (.first (orderlyAt_skipTo ‹_› (by simp) c.look_rest) fun _ _ _ =>
        (orderly_accept _).andThen (fun _ => orderly_pure id) _)
  · exact (orderly_field e).bind (fun _ => orderly_pure id) _
  · exact (orderly_field e).bind (fun _ => orderly_pure id) _
  · exact orderly_unexpected _ _

/-- Where a message is read there are more levels left than words. -/
theorem orderlyAt_messageUpTo (e : Edition) {depth : Nat} {c : Cursor} (h : c.rest.length < depth) :
    OrderlyAt Any (messageUpTo e depth) c ∧
      ∀ span, c.rest.head? = some ⟨.ident "message", span⟩ → Uses (messageUpTo e depth) c := by
  induction depth generalizing c with
  | zero => exact absurd h (Nat.not_lt_zero _)
  | succ depth ih =>
    have hafter : ∀ (start : Span) (c₁ : Cursor), c₁.rest.length < c.rest.length →
        OrderlyAt Never (ident >>= fun name => sign .leftBrace >>= fun _ =>
          messageBody e (messageUpTo e depth) start name) c₁ := by
      intro start c₁ hless
      refine (orderly_ident c₁).andNext fun name c₂ hname _ => ?_
      refine (orderly_sign .leftBrace c₂).andNext fun _ c₃ hbody _ => ?_
      have hle : c₃.rest.length ≤ c₁.rest.length := hbody.length_le.trans hname.length_le
      refine orderlyAt_loop (fun m part hpart => .imp (orderlyAt_messageRound ?_ start m) ?_) _
      · refine (ih ?_).1
        rw [Cursor.look_rest]
        omega
      · exact fun _ _ => trivial
    exact ⟨(orderly_keyword "message" c).first hafter,
      fun span hw => (uses_expect hw).first hafter⟩

theorem begins_message (e : Edition) : Begins "message" (message e) where
  orderly c := by
    have h := (orderlyAt_messageUpTo e c.length_rest_lt).1
    exact ⟨h.rest, h.faults, h.spent⟩
  uses {c span} hw := (orderlyAt_messageUpTo e c.length_rest_lt).2 span hw

/-! ### Files -/

theorem begins_package : Begins "package" package :=
  .keyword _ fun _ => .bind orderly_dotted fun _ =>
    (orderly_sign _).bind fun _ => orderly_pure id

theorem orderly_importKind : Orderly Never importKind := by
  intro c
  refine .peek ?_
  split
  · exact .advance ‹_› (orderly_pure id)
  · exact .advance ‹_› (orderly_pure id)
  · exact orderly_pure id _
  · exact orderly_unexpected _ _

theorem begins_importStatement : Begins "import" importStatement :=
  .keyword _ fun _ => .andThen orderly_importKind fun _ => .bind orderly_string fun _ =>
    (orderly_sign _).bind fun _ => orderly_pure id

theorem begins_service : Begins "service" service :=
  .keyword _ fun _ => .bind orderly_ident fun _ => orderly_skipBlock

theorem orderly_levelNamed (name : String) (span : Span) :
    Orderly Never (levelNamed name span) := by
  unfold levelNamed
  split
  · exact orderly_pure id
  · split
    · exact orderly_pure id
    · exact .report rfl rfl orderly_fail

theorem orderly_edition : Orderly Any edition :=
  (orderly_keyword _).bind fun _ => (orderly_sign _).bind fun _ => .bind orderly_string fun s =>
    (orderly_levelNamed s.1 s.2).andThen fun _ => (orderly_sign _).bind fun _ => orderly_pure id

theorem orderly_addPackage (f : File) (p : Package) : Orderly Never (addPackage f p) := by
  unfold addPackage
  split
  · exact .report rfl rfl (orderly_pure id)
  · exact orderly_pure id

theorem orderly_statement (f : File) : Orderly Never (statement f) := by
  intro c
  refine .peek ?_
  split
  · exact orderly_pure id _
  · exact .advance ‹_› (orderly_pure id)
  · exact Begins.bind begins_importStatement (fun _ => orderly_pure id) _
  · exact Begins.bind begins_package
      (fun p => (orderly_addPackage f p).andThen fun _ => orderly_pure id) _
  · exact Begins.bind begins_settingStatement (fun _ => orderly_pure id) _
  · exact (begins_message _).bind (fun _ => orderly_pure id) _
  · exact Begins.bind begins_enum (fun _ => orderly_pure id) _
  · exact Begins.bind begins_service (fun _ => orderly_pure id) _
  · exact Orderly.report rfl rfl (.andThen orderly_skipBlock fun _ => orderly_pure id) _
  · exact orderly_unexpected _ _

theorem orderly_editionOrDefault : Orderly Never editionOrDefault := by
  intro c
  refine .peek ?_
  split
  · refine (Orderly.recover orderly_edition).andThen (fun level => ?_) _
    cases level with
    | some level => exact orderly_pure id
    | none => exact (orderly_skipTo _).andThen fun _ => orderly_pure id
  · exact orderly_pure id _

/-! ### Reading goes on -/

theorem moves_statement (f : File) {c : Cursor} {w : Word} (hw : c.rest.head? = some w) :
    Moves statementWords (statement f) c := by
  refine .peek ?_
  split
  · rename_i h
    cases hw.symm.trans h
  · exact .inl ((uses_advance ‹_›).bind fun _ => orderly_pure id)
  · exact .inl (Begins.uses_bind begins_importStatement ‹_› fun _ => orderly_pure id)
  · exact .inl (Begins.uses_bind begins_package ‹_› fun p =>
      (orderly_addPackage f p).andThen fun _ => orderly_pure id)
  · exact .inl (Begins.uses_bind begins_settingStatement ‹_› fun _ => orderly_pure id)
  · exact .inl (Begins.uses_bind (begins_message _) ‹_› fun _ => orderly_pure id)
  · exact .inl (Begins.uses_bind begins_enum ‹_› fun _ => orderly_pure id)
  · exact .inl (Begins.uses_bind begins_service ‹_› fun _ => orderly_pure id)
  · rename_i h
    rw [← c.look_rest] at h
    exact .inl (.report (.bind (uses_skipBlock h) fun _ => orderly_pure id))
  · obtain ⟨token, span⟩ := w
    rw [← c.look_rest] at hw
    refine moves_unexpected hw ?_ _
    simp_all [statementWords]

theorem uses_statementOrSkip (f : File) {c : Cursor} {w : Word} (hw : c.rest.head? = some w) :
    Uses (statementOrSkip f) c :=
  (moves_statement f hw).recover (fun _ => orderly_pure id) rfl (orderly_pure id)

/-- After a statement with a fault a word is passed over as well, since reading goes on at the words
that begin statements, and these are passed over by their statements. -/
theorem orderly_statementOrSkip (f : File) : Orderly (GoesOn Any) (statementOrSkip f) := by
  have hnever : Orderly Never (statementOrSkip f) := by
    refine (orderly_statement f).recover.andThen fun turn => ?_
    cases turn with
    | some turn => exact orderly_pure id
    | none => exact (orderly_skipTo _).andThen fun _ => orderly_pure id
  intro c
  cases hw : c.rest.head? with
  | some w => exact (hnever c).of_uses (uses_statementOrSkip f hw)
  | none =>
    refine ⟨(hnever c).rest, (hnever c).faults, fun turn hturn hgoesOn => ?_⟩
    rw [statementOrSkip_of_rest_nil f (List.head?_eq_none_iff.mp hw)] at hturn
    obtain ⟨g, rfl, _⟩ := hgoesOn
    cases hturn

theorem orderly_file : Orderly Never file :=
  .andThen orderly_editionOrDefault fun _ => orderly_loop orderly_statementOrSkip _

theorem succeeds_editionOrDefault : Succeeds editionOrDefault := by
  refine .peek fun w => ?_
  split
  · refine (succeeds_recover edition).bind fun level => ?_
    cases level with
    | some level => exact succeeds_pure _
    | none => exact (succeeds_skipTo _).bind fun _ => succeeds_pure _
  · exact succeeds_pure _

theorem succeeds_statementOrSkip (f : File) : Succeeds (statementOrSkip f) := by
  refine (succeeds_recover _).bind fun turn => ?_
  cases turn with
  | some turn => exact succeeds_pure _
  | none => exact (succeeds_skipTo _).bind fun _ => succeeds_pure _

/-- There are always enough rounds: one that goes on has used up a word, and where there are no
words left the file is done. -/
theorem succeeds_file : Succeeds file :=
  .bind succeeds_editionOrDefault fun _ =>
    succeeds_loop succeeds_statementOrSkip orderly_statementOrSkip _

/-- **A file is read to the end of its text**, whatever that is: all lexemes are taken. The faults
that are recorded then are those of the lexemes and, besides, proper ones. -/
theorem file_runs (c : Cursor) : ∃ f c' more, file c = (some f, c') ∧ c'.Ended ∧
    c'.faults.Perm (c.allFaults ++ more) ∧ ∀ fault ∈ more, Proper c.rest fault := by
  obtain ⟨f, hf⟩ := succeeds_file c
  have hended := ended_of_file hf
  obtain ⟨more, hmore, hproper⟩ := (orderly_file c).faults
  rw [hended.allFaults] at hmore
  exact ⟨f, (file c).2, more, Prod.ext hf rfl, hended, hmore, hproper⟩

end Grammar

end Protobuf

import Protobuf.Proofs.Source.Options

/-! Reserved numbers and names, and enums.

An item of a list is followed by a comma or the end of the statement, which is what ends a range
without an upper end. -/
namespace Protobuf.Grammar
open Decl Protobuf.Parser
open scoped Computability

variable {next : Option Token → Prop}

/-! ### Lists -/

theorem reads_commaList {α : Type} {phrase : Language Token} {item : Parser α}
    (h : Reads (fun _ => phrase) item) :
    Reads (fun _ => Phrase.commaList phrase) (commaList item) := by
  rw [Phrase.commaList_eq]
  refine Reads.loop_kstar (fun list => ?_) ?_ []
  · have hrest : ∀ next : α, Reads (turnPhrases (Phrase.sign .comma * 1) 1)
        (accept .comma >>= fun taken => if taken = true then
          pure (Turn.again (list ++ [next])) else pure (Turn.done (list ++ [next]))) :=
      fun next => Reads.ifAccept (fun _ => readsAt_pure rfl) fun _ => readsAt_pure rfl
    refine h.bind hrest fun next turn => ?_
    cases turn with
    | again _ => simp [turnPhrases]
    | done _ => simp [turnPhrases]
  · exact nil_notMem_mul_token _ _

/-- What follows an item of a list. -/
def ItemEnd (t : Option Token) : Prop :=
  t = some (.punct .comma) ∨ t = some (.punct .semicolon)

theorem accepts_commaList {α : Type} {phrase : Language Token} {item : Parser α}
    (h : Accepts ItemEnd phrase Any item) :
    Accepts (· = some (.punct .semicolon)) (Phrase.commaList phrase) Any (commaList item) := by
  rw [Phrase.commaList_eq]
  refine Accepts.loop_any (fun list => ?_) (fun list => ?_) (nil_notMem_mul_token _ _) []
  · rw [← mul_one {[Token.punct .comma]}]
    exact h.bind (fun item _ => .ifAccept (accepts_pure ⟨_, rfl, trivial⟩))
      (leads_token_mul (.inl rfl))
  · rw [← mul_one phrase]
    refine h.bind (fun item _ => .ifNotAccept (fun t ht => ?_) ⟨_, rfl, trivial⟩)
      (leads_one.imp fun _ ht => .inr ht)
    rw [ht]
    nofun

/-! ### Reserved numbers and names -/

theorem reads_rangeLast : Reads (fun _ => Phrase.keyword "max" + Phrase.integer) rangeLast := by
  intro c
  refine .peek ?_
  split
  · rename_i span h
    exact readsAt_advance_pure h (.inl rfl)
  · exact (reads_int _).andPure fun _ _ hv => .inr hv

theorem reads_reservedRange : Reads (fun _ => Phrase.reservedRange) reservedRange := by
  refine .seq reads_int fun first ws => .peek ?_
  split
  · rename_i span h
    exact (reads_rangeLast.andReturn fun _ => ⟨_, rfl⟩).advance h fun _ _ hv => .inr hv
  · exact readsAt_pure (.inl rfl)
  · exact readsAt_pure (.inl rfl)
  · exact reads_unexpected _ _

theorem reads_reservedName : Reads (fun _ => Phrase.text) reservedName :=
  .andReturn reads_text fun _ => ⟨_, rfl⟩

theorem reads_reservedItems :
    Reads (fun _ => Phrase.commaList Phrase.reservedRange + Phrase.commaList Phrase.text)
      reservedItems := by
  intro c
  refine .peek ?_
  split
  · exact (reads_commaList reads_reservedRange _).andPure fun _ _ hv => .inl hv
  · exact (reads_commaList reads_reservedRange _).andPure fun _ _ hv => .inl hv
  · exact (reads_commaList reads_reservedName _).andPure fun _ _ hv => .inr hv
  · exact reads_unexpected _ _

theorem reads_reserved : Reads (fun _ => Phrase.reserved) reserved := by
  rw [Phrase.reserved, mul_assoc]
  exact (reads_keyword "reserved").seq fun _ => .seq reads_reservedItems fun _ =>
    (reads_sign .semicolon).andReturn fun _ => ⟨_, rfl⟩

theorem accepts_rangeLast :
    Accepts next (Phrase.keyword "max" + Phrase.integer) Any rangeLast := by
  have hint : Accepts next Phrase.integer Any
      (int >>= fun last => pure (RangeEnd.upTo last)) := .andPure accepts_int fun _ _ => trivial
  refine .add (.peekOnly fun _ => ⟨_, trivial, rfl⟩) (.peekHead hint fun v hv => ?_)
  rcases Phrase.head?_of_mem_integer hv with hhead | ⟨value, hhead⟩
  · exact ⟨_, hhead, fun _ => rfl⟩
  · exact ⟨_, hhead, fun _ => rfl⟩

theorem accepts_reservedRange : Accepts ItemEnd Phrase.reservedRange Any reservedRange := by
  refine .seq accepts_int fun first _ => .add (.peekNext fun t ht => ?_)
    (.peekToken (fun _ => rfl) fun _ => .andPure accepts_rangeLast fun _ _ => trivial)
  rcases ht with rfl | rfl
  · exact ⟨_, rfl, fun _ => ⟨_, trivial, rfl⟩⟩
  · exact ⟨_, rfl, fun _ => ⟨_, trivial, rfl⟩⟩

theorem accepts_reservedName : Accepts next Phrase.text Any reservedName :=
  (accepts_string _).andPure fun _ _ => trivial

theorem accepts_reservedItems :
    Accepts (· = some (.punct .semicolon))
      (Phrase.commaList Phrase.reservedRange + Phrase.commaList Phrase.text) Any
      reservedItems := by
  have hranges : Accepts (· = some (.punct .semicolon)) (Phrase.commaList Phrase.reservedRange) Any
      (commaList reservedRange >>= fun list => pure (ReservedItems.ranges list)) :=
    (accepts_commaList accepts_reservedRange).andPure fun _ _ => trivial
  have hnames : Accepts (· = some (.punct .semicolon)) (Phrase.commaList Phrase.text) Any
      (commaList reservedName >>= fun list => pure (ReservedItems.names list)) :=
    (accepts_commaList accepts_reservedName).andPure fun _ _ => trivial
  refine .add (.peekHead hranges fun v hv => ?_) (.peekHead hnames fun v hv => ?_)
  · obtain ⟨u, hu, v, _, rfl⟩ := Language.mem_mul.mp hv
    obtain ⟨a, ha, b, _, rfl⟩ := Language.mem_mul.mp hu
    rcases Phrase.head?_of_mem_integer ha with hhead | ⟨value, hhead⟩
    · exact ⟨_, by rw [List.append_assoc, List.head?_append, hhead]; rfl, fun _ => rfl⟩
    · exact ⟨_, by rw [List.append_assoc, List.head?_append, hhead]; rfl, fun _ => rfl⟩
  · obtain ⟨u, ⟨content, _, _, _, rfl⟩, v, _, rfl⟩ := Language.mem_mul.mp hv
    exact ⟨_, rfl, fun _ => rfl⟩

theorem accepts_reserved : Accepts next Phrase.reserved Any reserved := by
  rw [Phrase.reserved, mul_assoc]
  exact (accepts_keyword "reserved").seq fun _ _ => accepts_reservedItems.bind
    (fun _ _ => (accepts_sign .semicolon).andPure fun _ _ => trivial) (leads_token rfl)

theorem head?_of_mem_reserved {w : List Token} (h : w ∈ Phrase.reserved) :
    w.head? = some (.ident "reserved") := by
  rw [Phrase.reserved, mul_assoc] at h
  exact head?_of_mem_token_mul h

/-! ### Enums -/

theorem reads_enumValueSettings :
    Reads (fun _ => 1 + Phrase.settingList Phrase.settingName) enumValueSettings := by
  intro c
  refine .peek ?_
  split
  · exact readsAt_pure (.inl rfl)
  · exact (reads_plainSettingList _).mono fun _ _ hv => .inr hv
  · exact reads_unexpected _ _

theorem reads_enumValue : Reads (fun _ => Phrase.ident * Phrase.sign .equals * Phrase.integer *
    (1 + Phrase.settingList Phrase.settingName) * Phrase.sign .semicolon) enumValue := by
  simp only [mul_assoc]
  exact .seq reads_ident fun _ => (reads_sign .equals).seq fun _ => .seq reads_int fun _ =>
    .seq reads_enumValueSettings fun _ => (reads_sign .semicolon).andReturn fun _ => ⟨_, rfl⟩

theorem nil_notMem_enumPart : [] ∉ Phrase.enumPart := by
  intro h
  rcases h with ((h | h) | h) | h
  · cases h
  · exact nil_notMem_mul_token _ _ h
  · exact nil_notMem_mul_token _ _ h
  · exact nil_notMem_mul_token _ _ h.1

theorem reads_enumRound (start : Span) (e : Decl.Enum) :
    Reads (turnPhrases Phrase.enumPart (Phrase.sign .rightBrace)) (enumRound start e) := by
  intro c
  refine .peek ?_
  split
  · exact (reads_settingStatement _).andPure fun _ _ hv => .inl (.inl (.inr hv))
  · exact (reads_reserved _).andPure fun _ _ hv => .inl (.inr hv)
  · rename_i h
    exact readsAt_advance_pure h (.inl (.inl (.inl rfl)))
  · rename_i word span hoption hreserved h
    refine (reads_enumValue.head h fun _ => nil_notMem_mul_token _ _).andPure
      fun _ v hv => .inr ⟨hv.1, Phrase.notMem_startingWith_of_ident hv.2 ?_⟩
    exact not_or.mpr ⟨hoption, hreserved⟩
  · rename_i span h
    exact readsAt_advance_pure h rfl
  · exact reads_unexpected _ _

theorem reads_enumBody (start : Span) (name : Ident) :
    Reads (fun _ => Phrase.enumPart∗ * Phrase.sign .rightBrace) (enumBody start name) :=
  Reads.loop_kstar (reads_enumRound start) nil_notMem_enumPart _

theorem reads_enum : Reads (fun _ => Phrase.enum) enum := by
  simp only [Phrase.enum, mul_assoc]
  exact (reads_keyword "enum").seq fun _ => .seq reads_ident fun _ =>
    (reads_sign .leftBrace).seq fun _ => reads_enumBody _ _

theorem accepts_enumValueSettings :
    Accepts (· = some (.punct .semicolon)) (1 + Phrase.settingList Phrase.settingName) Any
      enumValueSettings := by
  refine .add (.peekNext fun t ht => ⟨_, ht, fun _ => ⟨_, trivial, rfl⟩⟩) ?_
  refine .peekHead ((accepts_settingList .proto2).imp fun _ _ => trivial) fun v hv => ?_
  rw [Phrase.settingList, mul_assoc] at hv
  exact ⟨_, head?_of_mem_token_mul hv, fun _ => rfl⟩

theorem accepts_enumValue :
    Accepts next (Phrase.ident * Phrase.sign .equals * Phrase.integer *
      (1 + Phrase.settingList Phrase.settingName) * Phrase.sign .semicolon) Any enumValue := by
  simp only [mul_assoc]
  exact .seq accepts_ident fun _ _ => (accepts_sign .equals).seq fun _ _ => accepts_int.seq
    fun _ _ => accepts_enumValueSettings.bind
      (fun _ _ => (accepts_sign .semicolon).andPure fun _ _ => trivial) (leads_token rfl)

theorem accepts_enumBody (start : Span) (name : Ident) :
    Accepts next (Phrase.enumPart∗ * Phrase.sign .rightBrace) Any (enumBody start name) := by
  refine Accepts.loop_any (fun e => .add (.add (.add ?_ ?_) ?_) ?_)
    (fun e => .peekOnly fun _ => ⟨_, ⟨_, rfl, trivial⟩, rfl⟩) nil_notMem_enumPart _
  · exact .peekOnly fun _ => ⟨_, ⟨_, rfl, trivial⟩, rfl⟩
  · exact .peekGoesOn accepts_settingStatement fun v hv =>
      ⟨_, head?_of_mem_settingStatement hv, fun _ => ⟨_, rfl, fun _ => trivial⟩⟩
  · exact .peekGoesOn accepts_reserved fun v hv =>
      ⟨_, head?_of_mem_reserved hv, fun _ => ⟨_, rfl, fun _ => trivial⟩⟩
  · refine .peekGoesOn (.mono accepts_enumValue sdiff_le) fun v hv => ?_
    obtain ⟨hv, hstart⟩ := hv
    simp only [mul_assoc] at hv
    obtain ⟨u, ⟨word, rfl⟩, v, _, rfl⟩ := Language.mem_mul.mp hv
    have hoption : word ≠ "option" := fun h => hstart ⟨word, .inl h, rfl⟩
    have hreserved : word ≠ "reserved" := fun h => hstart ⟨word, .inr h, rfl⟩
    refine ⟨.ident word, rfl, fun _ =>
      ⟨fun v => { e with values := e.values ++ [v] }, ?_, fun _ => trivial⟩⟩
    simp only

theorem accepts_enum : Accepts next Phrase.enum Any enum := by
  simp only [Phrase.enum, mul_assoc]
  exact (accepts_keyword "enum").seq fun _ _ => .seq accepts_ident fun _ _ =>
    (accepts_sign .leftBrace).seq fun _ _ => accepts_enumBody _ _

theorem head?_of_mem_enum {w : List Token} (h : w ∈ Phrase.enum) :
    w.head? = some (.ident "enum") := by
  simp only [Phrase.enum, mul_assoc] at h
  exact head?_of_mem_token_mul h

end Protobuf.Grammar

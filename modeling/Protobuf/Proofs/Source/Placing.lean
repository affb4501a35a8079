import Protobuf.Proofs.Source.Partition
import Protobuf.Proofs.Source.PlainNames

/-! Where in the text parsers find their values.

The words of a text follow one another in it, and names are spelled there as they are (`Laid`). A
parser goes on from one position to a later one. What it gives is tied to the two (`Places`): the
ranges of its parts lie between them, in order. Sequences put ranges one after the other, and loops
keep an invariant that moves with the position. -/
namespace Protobuf

/-! ### Ascending ranges -/

namespace Span

/-- The parts lie in the range, one after another. -/
def Encloses (whole : Span) (parts : List Span) : Prop :=
  Ascending whole.start whole.stop parts

namespace Ascending
variable {start here stop : Nat} {spans parts : List Span}

theorem start_le (h : Ascending start stop spans) : start ≤ stop :=
  Nat.le_trans (Nat.le_add_right start _) h.add_length_le

theorem mono_left (h : Ascending here stop spans) (hle : start ≤ here) :
    Ascending start stop spans := by
  cases spans with
  | nil => exact Nat.le_trans hle h
  | cons span rest => exact ⟨Nat.le_trans hle h.1, h.2⟩

theorem append (h : Ascending start here spans) (hparts : Ascending here stop parts) :
    Ascending start stop (spans ++ parts) := by
  induction spans generalizing start with
  | nil => exact hparts.mono_left h
  | cons span rest ih => exact ⟨h.1, h.2.1, ih h.2.2⟩

theorem mono_right (h : Ascending start here spans) (hle : here ≤ stop) :
    Ascending start stop spans := by
  have hempty : Ascending here stop [] := hle
  have := h.append hempty
  rwa [List.append_nil] at this

theorem sublist (h : Ascending start stop spans) (hsub : parts.Sublist spans) :
    Ascending start stop parts := by
  induction hsub generalizing start with
  | slnil => exact h
  | cons span _ ih => exact ih (h.2.2.mono_left (Nat.le_trans h.1 (Nat.le_of_lt h.2.1)))
  | cons_cons span _ ih => exact ⟨h.1, h.2.1, ih h.2.2⟩

/-- The last range ends the others. -/
theorem upTo_last {last : Span} (h : Ascending start stop (spans ++ [last])) :
    Ascending start last.stop (spans ++ [last]) ∧ last.stop ≤ stop := by
  induction spans generalizing start with
  | nil => exact ⟨⟨h.1, h.2.1, Nat.le_refl _⟩, h.2.2⟩
  | cons span rest ih =>
    obtain ⟨hrest, hle⟩ := ih h.2.2
    exact ⟨⟨h.1, h.2.1, hrest⟩, hle⟩

/-- Where a range begins. -/
theorem first {span : Span} (h : Ascending start stop (span :: spans)) :
    start ≤ span.start ∧ span.start ≤ stop := by
  have := h.bounds List.mem_cons_self
  omega

/-- From the start of one range to the end of another, with parts between them. -/
theorem join {pos : Nat} {first last : Span} (hfirst : pos ≤ first.start ∧ first.start ≤ here)
    (h : Ascending here stop (parts ++ [last])) :
    Ascending pos stop [first.join last] ∧ (first.join last).Encloses parts := by
  obtain ⟨hparts, hle⟩ := h.upTo_last
  have hinside : Ascending first.start last.stop parts :=
    (hparts.sublist (List.sublist_append_left ..)).mono_left hfirst.2
  have hlast := hparts.bounds (List.mem_append_right parts List.mem_cons_self)
  refine ⟨⟨hfirst.1, ?_, hle⟩, hinside⟩
  exact Nat.lt_of_le_of_lt (Nat.le_trans hfirst.2 hlast.1) hlast.2.1

theorem join_single {first last : Span} (hfirst : Ascending start here [first])
    (hlast : Ascending here stop [last]) : Ascending start stop [first.join last] := by
  have hparts : Ascending here stop ([] ++ [last]) := hlast
  exact (join hfirst.first hparts).1

/-- A range that starts like another one and goes beyond it. -/
theorem extend {first whole part : Span} (hfirst : Ascending start here [first])
    (hstart : whole.start = first.start) (hstop : whole.stop ≤ stop)
    (hparts : whole.Encloses (part :: parts)) : Ascending start stop [whole] := by
  have hinside := hparts.bounds List.mem_cons_self
  refine ⟨hstart ▸ hfirst.1, ?_, hstop⟩
  omega

/-- The first range begins a sequence of ranges, and the last one ends it. -/
theorem join_getLastD {first : Span} (h : Ascending start stop (first :: spans)) :
    Ascending start stop [first.join (spans.getLastD first)] ∧
      (first.join (spans.getLastD first)).Encloses (first :: spans) := by
  induction spans generalizing start first with
  | nil => exact ⟨h, Nat.le_refl _, h.2.1, Nat.le_refl _⟩
  | cons second rest ih =>
    obtain ⟨hfirst, hlength, hrest⟩ := h
    obtain ⟨hwhole, hparts⟩ := ih hrest
    rw [List.getLastD_cons]
    refine ⟨⟨hfirst, ?_, hwhole.2.2⟩, Nat.le_refl _, hlength, hwhole.1, hparts.2⟩
    exact Nat.lt_of_lt_of_le hlength (Nat.le_trans hwhole.1 (Nat.le_of_lt hwhole.2.1))

theorem from_first {span : Span} (h : Ascending start stop (span :: spans)) :
    Ascending span.start stop (span :: spans) :=
  ⟨Nat.le_refl _, h.2⟩

section Lists
variable {α : Type} {list : List α} {a : α}

/-- The ranges of a list go on with those of one more element. -/
theorem concat_map {f : α → Span} (front : List Span)
    (h : Ascending start here (front ++ list.map f)) (ha : Ascending here stop [f a]) :
    Ascending start stop (front ++ (list ++ [a]).map f) := by
  rw [List.map_append, ← List.append_assoc]
  exact h.append ha

theorem concat_flatMap {f : α → List Span} (front : List Span)
    (h : Ascending start here (front ++ list.flatMap f)) (ha : Ascending here stop (f a)) :
    Ascending start stop (front ++ (list ++ [a]).flatMap f) := by
  rw [List.flatMap_append, List.flatMap_singleton, ← List.append_assoc]
  exact h.append ha

end Lists

end Ascending

end Span

/-! ### Words in their places -/

/-- If the word is a name, the text has it there. -/
def Word.Spelled (text : String) (w : Word) : Prop :=
  ∀ name, w.token = .ident name → w.span.text text = name

/-- From `pos` on, the text has these words. -/
structure Laid (text : String) (pos : Nat) (ws : List Word) : Prop where
  ascending : Span.Ascending pos text.utf8ByteSize (ws.map Word.span)
  spelled : ∀ w ∈ ws, w.Spelled text

namespace Laid
variable {text : String} {pos : Nat} {ws rest : List Word}

theorem sublist (h : Laid text pos ws) (hsub : rest.Sublist ws) : Laid text pos rest :=
  ⟨h.ascending.sublist (hsub.map Word.span), fun w hw => h.spelled w (hsub.subset hw)⟩

theorem tail {w : Word} (h : Laid text pos (w :: ws)) : Laid text w.span.stop ws :=
  ⟨h.ascending.2.2, fun v hv => h.spelled v (List.mem_cons_of_mem w hv)⟩

theorem word {w : Word} (h : Laid text pos (w :: ws)) :
    Span.Ascending pos w.span.stop [w.span] ∧ w.Spelled text :=
  ⟨⟨h.ascending.1, h.ascending.2.1, Nat.le_refl _⟩, h.spelled w List.mem_cons_self⟩

end Laid

/-- The characters of a name are its letters. -/
theorem Lexer.Spells.ident {piece : List Char} {name : String}
    (h : Lexer.Spells piece (some (.ident name))) : String.ofList piece = name := by
  obtain ⟨c, body, rfl, -, htoken, hextra⟩ := h
  have hletter := isLetter_of_token htoken
  obtain ⟨others, after, rfl, hothers, hafter⟩ := exists_run isWordChar body
  rw [token_letter hletter, word_run hothers hafter] at htoken hextra
  have hnil : after = [] := by
    rw [List.length_append] at hextra
    exact List.length_eq_zero_iff.mp (Nat.left_eq_add.mp hextra)
  rw [hnil, List.append_nil]
  exact Token.ident.inj (Option.some.inj htoken)

namespace Parser

theorem spans_sublist (lexemes : List Lexeme) :
    ((words lexemes).map Word.span).Sublist (lexemes.map Lexeme.span) := by
  induction lexemes with
  | nil => exact .slnil
  | cons l lexemes ih =>
    rw [words]
    cases hword : l.word? with
    | none =>
      rw [List.filterMap_cons_none hword]
      exact ih.cons _
    | some w =>
      rw [List.filterMap_cons_some hword, List.map_cons, List.map_cons, (token_of_word? hword).2]
      exact ih.cons_cons _

/-- The words of a text follow one another in it. -/
theorem words_laid (text : String) : Laid text 0 (words (Lexer.scan text)) := by
  constructor
  · exact (Lexer.ascending_scan text).sublist (spans_sublist _)
  · intro w hw name hname
    obtain ⟨l, hl, hword⟩ := List.mem_filterMap.mp hw
    obtain ⟨htoken, hspan⟩ := token_of_word? hword
    obtain ⟨piece, hat, hspells⟩ := (Lexer.tiles_scan text).isAt hl
    rw [htoken, hname] at hspells
    rw [← hspan, hat.text_eq, hspells.ident]

end Parser

/-! ### Building parsers -/

namespace Parser
variable {α β σ : Type} {text : String} {post mid : Nat → Nat → α → Prop} {p : Parser α}

/-- The parser goes on in the text, from one position to another, and ties what it gives to both. -/
def Places (text : String) (post : Nat → Nat → α → Prop) (p : Parser α) : Prop :=
  ∀ (c : Cursor) (pos : Nat) (a : α), Laid text pos c.rest → (p c).1 = some a →
    ∃ stop, Laid text stop (p c).2.rest ∧ post pos stop a

theorem places_pure {a : α} (h : ∀ pos, post pos pos a) : Places text post (pure a) := by
  intro c pos b hlaid hb
  cases hb
  exact ⟨pos, hlaid, h pos⟩

/-- Of a parser that never gives a value nothing is asked. -/
theorem places_of_none (h : ∀ c, (p c).1 = none) : Places text post p := by
  intro c pos a hlaid ha
  rw [h c] at ha
  cases ha

theorem places_fail : Places text post (fail : Parser α) :=
  places_of_none fun _ => rfl

theorem places_impossible (reason : String) : Places text post (impossible reason : Parser α) :=
  places_of_none fun _ => rfl

theorem places_unexpected (expected : String) : Places text post (unexpected expected : Parser α) :=
  places_of_none fun c => by
    rw [unexpected, peek_run]
    cases c.rest.head? <;> rfl

theorem Places.imp {post' : Nat → Nat → α → Prop} (h : Places text post p)
    (himp : ∀ pos stop a, post pos stop a → post' pos stop a) : Places text post' p := by
  intro c pos a hlaid ha
  obtain ⟨stop, hrest, hpost⟩ := h c pos a hlaid ha
  exact ⟨stop, hrest, himp pos stop a hpost⟩

/-- The second parser starts where the first one stops. -/
theorem Places.bind {post : Nat → Nat → β → Prop} {f : α → Parser β} (hp : Places text mid p)
    (hf : ∀ a pos, Places text (fun here stop b => mid pos here a → post pos stop b) (f a)) :
    Places text post (p >>= f) := by
  intro c pos b hlaid hb
  rw [bind_run] at hb ⊢
  cases hrun : p c with
  | mk result c' =>
    rw [hrun] at hb
    cases result with
    | none => cases hb
    | some a =>
      obtain ⟨here, hhere, hmid⟩ := hp c pos a hlaid (by rw [hrun])
      rw [hrun] at hhere
      obtain ⟨stop, hstop, hpost⟩ := hf a pos c' here b hhere hb
      exact ⟨stop, hstop, hpost hmid⟩

theorem Places.andPure {post : Nat → Nat → β → Prop} {g : α → β} (hp : Places text mid p)
    (h : ∀ pos stop a, mid pos stop a → post pos stop (g a)) :
    Places text post (p >>= fun a => pure (g a)) :=
  hp.bind fun a pos => places_pure fun here => h pos here a

/-- Words that are passed over leave the position where it is. -/
theorem Orderly.places {spends : α → Prop} (h : Orderly spends p) :
    Places text (fun pos stop _ => stop = pos) p := by
  intro c pos a hlaid _
  exact ⟨pos, hlaid.sublist (h c).rest.sublist, rfl⟩

theorem Places.seq {spends : α → Prop} {post : Nat → Nat → β → Prop} {f : α → Parser β}
    (hp : Orderly spends p) (hf : ∀ a, Places text post (f a)) : Places text post (p >>= f) :=
  hp.places.bind fun a _ => (hf a).imp fun _ _ _ hpost hhere => hhere ▸ hpost

theorem Places.peek {f : Option Word → Parser α} (hf : ∀ next, Places text post (f next)) :
    Places text post (peek >>= f) := by
  intro c pos a hlaid ha
  rw [peek_run] at ha ⊢
  exact hf _ c.look pos a (c.look_rest.symm ▸ hlaid) ha

/-- What is tied to an earlier position can be tied to the one where the parser starts. -/
theorem Places.from_here {pre : Nat → Nat → Prop}
    (h : ∀ pos, Places text (fun here stop a => pre pos here → post pos stop a) p)
    (hpre : ∀ pos, pre pos pos) : Places text post p := by
  intro c pos a hlaid ha
  obtain ⟨stop, hstop, hpost⟩ := h pos c pos a hlaid ha
  exact ⟨stop, hstop, hpost (hpre pos)⟩

theorem Places.report {fault : Fault} {f : Unit → Parser α} (hf : Places text post (f ())) :
    Places text post (report fault >>= f) :=
  fun c pos a hlaid ha => hf { c with faults := c.faults ++ [fault] } pos a hlaid ha

theorem places_advance (w : Word) :
    Places text (fun pos stop _ => Span.Ascending pos stop [w.span] ∧ w.Spelled text)
      (advance w) := by
  intro c pos a hlaid ha
  unfold advance at ha ⊢
  split at ha
  · rename_i hseen
    rw [Cursor.rest_of_seen hseen] at hlaid
    rw [if_pos hseen]
    exact ⟨w.span.stop, hlaid.tail, hlaid.word⟩
  · cases ha

/-- A word may be passed over without going on from the position. -/
theorem Places.advance {w : Word} {f : Unit → Parser α} (hf : ∀ a, Places text post (f a)) :
    Places text post (advance w >>= f) := by
  intro c pos b hlaid hb
  by_cases hseen : c.seen = some w
  · rw [bind_run, advance_run hseen] at hb ⊢
    exact hf () _ pos b (hlaid.sublist (List.sublist_append_right ..)) hb
  · rw [bind_run, Parser.advance, if_neg hseen] at hb
    cases hb

/-- The position can go on to the start of the next word. -/
theorem places_peek : Places text
    (fun pos stop next => ∀ w, next = some w → pos ≤ stop ∧ stop = w.span.start) peek := by
  intro c pos next hlaid hnext
  cases hnext
  rw [← c.look_rest] at hlaid
  show ∃ stop, Laid text stop c.look.rest ∧ _
  rw [c.look_seen, ← c.look_rest]
  cases hrest : c.look.rest with
  | nil => exact ⟨pos, hrest ▸ hlaid, fun _ hw => by cases hw⟩
  | cons w rest =>
    rw [hrest] at hlaid
    refine ⟨w.span.start, ⟨⟨Nat.le_refl _, hlaid.ascending.2⟩, hlaid.spelled⟩, fun v hv => ?_⟩
    cases hv
    exact ⟨hlaid.ascending.1, rfl⟩

/-- After a failure reading goes on behind it. -/
theorem Places.recover {spends : α → Prop} {f : Option α → Parser α} (hp : Places text post p)
    (horderly : Orderly spends p) (hsome : ∀ a, f (some a) = pure a)
    (hnone : Places text post (f none)) : Places text post (recover p >>= f) := by
  intro c pos b hlaid hb
  have hrest := (horderly c).rest
  have hvalue := hp c pos
  simp only [bind_run, Parser.recover] at hb ⊢
  cases hrun : p c with
  | mk result c' =>
    rw [hrun] at hb hrest hvalue
    cases result with
    | none => exact hnone c' pos b (hlaid.sublist hrest.sublist) hb
    | some a =>
      dsimp only at hb ⊢
      rw [hsome a] at hb ⊢
      cases hb
      exact hvalue _ hlaid rfl

section Loops
variable {body : σ → Parser (Turn σ β)} {I : Nat → σ → Prop} {post : Nat → β → Prop}

theorem places_loopFor
    (h : ∀ s, Places text (fun here stop turn => I here s → turn.Holds (I stop) (post stop))
      (body s)) (rounds : Nat) (s : σ) :
    Places text (fun here stop b => I here s → post stop b) (loopFor body rounds s) := by
  induction rounds generalizing s with
  | zero => exact places_impossible _
  | succ rounds ih =>
    refine (h s).bind fun turn pos => ?_
    cases turn with
    | again s' => exact (ih s').imp fun _ _ _ hb hturn hs => hb (hturn hs)
    | done b => exact places_pure fun _ hturn hs => hturn hs

/-- A loop whose rounds keep an invariant, which moves with the position. -/
theorem places_loop
    (h : ∀ s, Places text (fun here stop turn => I here s → turn.Holds (I stop) (post stop))
      (body s)) (s : σ) :
    Places text (fun here stop b => I here s → post stop b) (loop body s) :=
  fun c pos b hlaid hb => places_loopFor h c.limit s c pos b hlaid hb

end Loops

theorem places_expect (token : Token) :
    Places text (fun pos stop span => Span.Ascending pos stop [span]) (expect token) := by
  refine .peek fun w => ?_
  cases w with
  | none => exact places_unexpected _
  | some w =>
    dsimp only
    split
    · exact (places_advance w).andPure fun _ _ _ h => h.1
    · exact places_unexpected _

end Parser

end Protobuf

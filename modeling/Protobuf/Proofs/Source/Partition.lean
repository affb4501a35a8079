import Mathlib.Data.String.Basic
import Protobuf.Proofs.Source.Lexemes

/-! Lexemes tile the text.

A text is blanks, the characters of a lexeme, and then the rest of the text in the same way
(`Tiles`). So the ranges of the lexemes ascend without touching each other's bytes, end where
characters end, and leave nothing but blanks between them (`scan_partitions`). -/
namespace Protobuf

/-! ### Ranges of a text -/

namespace Span

/-- The text of a range. -/
def text (span : Span) (source : String) : String :=
  String.Pos.Raw.extract source ⟨span.start⟩ ⟨span.stop⟩

def contains (span : Span) (offset : Nat) : Bool :=
  span.start ≤ offset && offset < span.stop

theorem contains_iff {span : Span} {offset : Nat} :
    span.contains offset = true ↔ span.start ≤ offset ∧ offset < span.stop := by
  simp [contains]

/-- From `start` on, these ranges of at least one byte follow one another, up to `stop`. -/
def Ascending (start stop : Nat) : List Span → Prop
  | [] => start ≤ stop
  | span :: rest => start ≤ span.start ∧ span.start < span.stop ∧ Ascending span.stop stop rest

/-- The ranges in front of, between and behind these. -/
def gaps (start stop : Nat) : List Span → List Span
  | [] => [⟨start, stop⟩]
  | span :: rest => ⟨start, span.start⟩ :: gaps span.stop stop rest

namespace Ascending
variable {start stop : Nat} {spans : List Span}

theorem add_length_le (h : Ascending start stop spans) : start + spans.length ≤ stop := by
  induction spans generalizing start with
  | nil => exact h
  | cons span rest ih =>
    have := ih h.2.2
    have := h.1
    have := h.2.1
    rw [List.length_cons]
    omega

theorem bounds (h : Ascending start stop spans) {span : Span} (hspan : span ∈ spans) :
    start ≤ span.start ∧ span.start < span.stop ∧ span.stop ≤ stop := by
  induction spans generalizing start with
  | nil => cases hspan
  | cons first rest ih =>
    obtain ⟨hstart, hfirst, hrest⟩ := h
    rcases List.mem_cons.mp hspan with rfl | hspan
    · have := hrest.add_length_le
      omega
    · have := ih hrest hspan
      omega

theorem pairwise (h : Ascending start stop spans) :
    spans.Pairwise fun a b => a.start < b.start ∧ a.stop ≤ b.start := by
  induction spans generalizing start with
  | nil => exact .nil
  | cons first rest ih =>
    obtain ⟨hstart, hfirst, hrest⟩ := h
    refine .cons (fun span hspan => ?_) (ih hrest)
    have := hrest.bounds hspan
    omega

/-- A byte lies in one range or in one gap, and in one only. -/
theorem countP_contains (h : Ascending start stop spans) (offset : Nat) :
    (spans ++ gaps start stop spans).countP (·.contains offset) =
      if start ≤ offset ∧ offset < stop then 1 else 0 := by
  induction spans generalizing start with
  | nil => simp [gaps, contains, List.countP_cons]
  | cons span rest ih =>
    obtain ⟨hstart, hspan, hrest⟩ := h
    have hcount := ih hrest
    have hle := hrest.add_length_le
    rw [List.countP_append] at hcount
    simp only [gaps, List.cons_append, List.countP_cons, List.countP_append, contains_iff]
    split_ifs at hcount ⊢ <;> omega

end Ascending

end Span

/-! ### Places of characters in a text -/

theorem byteLength_append (a b : List Char) :
    byteLength (a ++ b) = byteLength a + byteLength b := by
  induction a with
  | nil => exact (Nat.zero_add _).symm
  | cons c a ih => simp only [List.cons_append, byteLength, ih, Nat.add_assoc]

theorem utf8Len_eq_byteLength (text : List Char) : String.utf8Len text = byteLength text := by
  induction text with
  | nil => rfl
  | cons c text ih => rw [String.utf8Len_cons, ih, byteLength, Nat.add_comm]

theorem byteLength_toList (text : String) : byteLength text.toList = text.utf8ByteSize := by
  rw [← utf8Len_eq_byteLength, String.utf8Len_toList]

theorem byteLength_pos {text : List Char} (h : text ≠ []) : 0 < byteLength text := by
  cases text with
  | nil => exact absurd rfl h
  | cons c text => exact Nat.add_pos_left c.utf8Size_pos _

/-- In a text that begins at `pos`, this is the range of these characters. -/
def IsAt (pos : Nat) (text piece : List Char) (span : Span) : Prop :=
  ∃ before after, text = before ++ piece ++ after ∧
    span = ⟨pos + byteLength before, pos + byteLength before + byteLength piece⟩

namespace IsAt
variable {pos : Nat} {text piece : List Char} {span : Span}

theorem append_left (front : List Char) (h : IsAt (pos + byteLength front) text piece span) :
    IsAt pos (front ++ text) piece span := by
  obtain ⟨before, after, rfl, rfl⟩ := h
  exact ⟨front ++ before, after, by simp, by simp [byteLength_append, Nat.add_assoc]⟩

theorem text_eq {source : String} (h : IsAt 0 source.toList piece span) :
    span.text source = String.ofList piece := by
  obtain ⟨before, after, hsource, rfl⟩ := h
  have hextract := String.extract_of_valid before piece after
  rw [← hsource, String.ofList_toList, utf8Len_eq_byteLength, utf8Len_eq_byteLength] at hextract
  rw [Span.text, Nat.zero_add, hextract]

/-- The range of characters begins and ends at a character. -/
theorem isValid {source : String} (h : IsAt 0 source.toList piece span) :
    String.Pos.Raw.IsValid source ⟨span.start⟩ ∧ String.Pos.Raw.IsValid source ⟨span.stop⟩ := by
  obtain ⟨before, after, hsource, rfl⟩ := h
  have hstring : ∀ front back, source.toList = front ++ back →
      String.Pos.Raw.IsValid source ⟨byteLength front⟩ := by
    intro front back hsplit
    refine String.Pos.Raw.isValid_iff_exists_append.mpr
      ⟨String.ofList front, String.ofList back, ?_, ?_⟩
    · rw [← String.ofList_append, ← hsplit, String.ofList_toList]
    · rw [String.rawEndPos_ofList, utf8Len_eq_byteLength]
  rw [Nat.zero_add, ← byteLength_append]
  exact ⟨hstring before (piece ++ after) (by rw [hsource, List.append_assoc]),
    hstring (before ++ piece) after hsource⟩

end IsAt

namespace Lexer

/-! ### The lexemes of a text -/

/-- The characters of a lexeme: by themselves they are read as this token, all of them. -/
def Spells (piece : List Char) (found : Option Token) : Prop :=
  ∃ c body, piece = c :: body ∧ isBlank c = false ∧ (token 0 c body).token = found ∧
    (token 0 c body).extra = body.length

/-- The text from `pos` on consists of these lexemes with blanks around them. -/
inductive Tiles : Nat → List Char → List Lexeme → Prop where
  | last {pos : Nat} {blanks : List Char} (hblanks : ∀ c ∈ blanks, isBlank c = true) :
    Tiles pos blanks []
  | next {pos : Nat} {blanks piece rest : List Char} {lexeme : Lexeme} {lexemes : List Lexeme}
    (hblanks : ∀ c ∈ blanks, isBlank c = true) (hpiece : Spells piece lexeme.token)
    (hstart : lexeme.span.start = pos + byteLength blanks)
    (hstop : lexeme.span.stop = lexeme.span.start + byteLength piece)
    (hrest : Tiles lexeme.span.stop rest lexemes) :
    Tiles pos (blanks ++ (piece ++ rest)) (lexeme :: lexemes)

theorem Tiles.blank {pos : Nat} {c : Char} {text : List Char} {lexemes : List Lexeme}
    (hc : isBlank c = true) (h : Tiles (pos + c.utf8Size) text lexemes) :
    Tiles pos (c :: text) lexemes := by
  cases h with
  | last hblanks => exact .last (List.forall_mem_cons.mpr ⟨hc, hblanks⟩)
  | @next _ blanks piece rest _ _ hblanks hpiece hstart hstop hrest =>
    show Tiles pos ((c :: blanks) ++ (piece ++ rest)) _
    refine .next (List.forall_mem_cons.mpr ⟨hc, hblanks⟩) hpiece ?_ hstop hrest
    rw [hstart, byteLength, Nat.add_assoc]

theorem tiles_scanFrom (pos : Nat) (text : List Char) : Tiles pos text (scanFrom pos text) := by
  fun_induction scanFrom pos text with
  | case1 => exact .last (List.forall_mem_nil _)
  | case2 pos c rest hblank ih => exact ih.blank hblank
  | case3 pos c rest hblank found stop ih =>
    obtain ⟨body, after, rfl, hlength, hsame⟩ := exists_token pos 0 c rest
    have hbody : (body ++ after).take found.extra = body := List.take_left' hlength
    have hafter : (body ++ after).drop found.extra = after := List.drop_left' hlength
    have hstop : stop = pos + byteLength (c :: body) := by rw [← hbody]
    rw [hafter] at ih ⊢
    have hspells : Spells (c :: body) found.token :=
      ⟨c, body, rfl, by simpa using hblank, hsame.token, hsame.extra.trans hlength.symm⟩
    show Tiles pos ([] ++ ((c :: body) ++ after)) _
    exact .next (List.forall_mem_nil _) hspells rfl hstop ih

namespace Tiles
variable {pos : Nat} {text : List Char} {lexemes : List Lexeme}

theorem isAt (h : Tiles pos text lexemes) {lexeme : Lexeme} (hlexeme : lexeme ∈ lexemes) :
    ∃ piece, IsAt pos text piece lexeme.span ∧ Spells piece lexeme.token := by
  induction h with
  | last => cases hlexeme
  | @next pos blanks piece rest first lexemes hblanks hpiece hstart hstop hrest ih =>
    rcases List.mem_cons.mp hlexeme with rfl | hlexeme
    · refine ⟨piece, ⟨blanks, rest, (List.append_assoc ..).symm, ?_⟩, hpiece⟩
      rw [← hstart, ← hstop]
    · obtain ⟨found, hat, hfound⟩ := ih hlexeme
      rw [hstop] at hat
      rw [hstart] at hat
      exact ⟨found, .append_left blanks (.append_left piece hat), hfound⟩

theorem isAt_gap (h : Tiles pos text lexemes) {gap : Span}
    (hgap : gap ∈ Span.gaps pos (pos + byteLength text) (lexemes.map Lexeme.span)) :
    ∃ blanks, IsAt pos text blanks gap ∧ ∀ c ∈ blanks, isBlank c = true := by
  induction h with
  | @last pos blanks hblanks =>
    obtain rfl := List.mem_singleton.mp hgap
    exact ⟨blanks, ⟨[], [], by simp, rfl⟩, hblanks⟩
  | @next pos blanks piece rest first lexemes hblanks hpiece hstart hstop hrest ih =>
    rcases List.mem_cons.mp hgap with rfl | hgap
    · exact ⟨blanks, ⟨[], piece ++ rest, rfl, by rw [hstart]; rfl⟩, hblanks⟩
    · rw [byteLength_append, byteLength_append, ← Nat.add_assoc, ← Nat.add_assoc, ← hstart,
        ← hstop] at hgap
      obtain ⟨found, hat, hfound⟩ := ih hgap
      rw [hstop] at hat
      rw [hstart] at hat
      exact ⟨found, .append_left blanks (.append_left piece hat), hfound⟩

theorem ascending (h : Tiles pos text lexemes) :
    Span.Ascending pos (pos + byteLength text) (lexemes.map Lexeme.span) := by
  induction h with
  | last => exact Nat.le_add_right ..
  | @next pos blanks piece rest first lexemes hblanks hpiece hstart hstop hrest ih =>
    obtain ⟨c, body, rfl, -⟩ := hpiece
    have hpos := byteLength_pos (List.cons_ne_nil c body)
    rw [byteLength_append, byteLength_append, ← Nat.add_assoc, ← Nat.add_assoc, ← hstart, ← hstop]
    exact ⟨hstart ▸ Nat.le_add_right .., hstop ▸ Nat.lt_add_of_pos_right hpos, ih⟩

end Tiles

theorem tiles_scan (source : String) : Tiles 0 source.toList (scan source) :=
  tiles_scanFrom 0 source.toList

theorem ascending_scan (source : String) :
    Span.Ascending 0 source.utf8ByteSize ((scan source).map Lexeme.span) := by
  have hascending := (tiles_scan source).ascending
  rwa [Nat.zero_add, byteLength_toList] at hascending

/-- The characters of a lexeme are a text of one lexeme. -/
theorem Spells.scan {piece : List Char} {found : Option Token} (h : Spells piece found) :
    (scan (String.ofList piece)).map (·.token) = [found] := by
  obtain ⟨c, body, rfl, hblank, htoken, hextra⟩ := h
  rw [Lexer.scan, String.toList_ofList, scanFrom, if_neg (by simp [hblank])]
  simp only [hextra, htoken, List.drop_length, List.map_cons]
  rw [scanFrom, List.map_nil]

/-- **Lexemes partition the text.** Each is a range of at least one byte that begins and ends at a
character, and its text is that lexeme by itself. They ascend without overlap, leave only blanks
outside, and each byte lies in one of them or in one of the gaps. -/
theorem scan_partitions (source : String) :
    (∀ lexeme ∈ scan source,
      lexeme.span.start < lexeme.span.stop ∧ lexeme.span.stop ≤ source.utf8ByteSize ∧
      String.Pos.Raw.IsValid source ⟨lexeme.span.start⟩ ∧
      String.Pos.Raw.IsValid source ⟨lexeme.span.stop⟩ ∧
      (scan (lexeme.span.text source)).map (·.token) = [lexeme.token]) ∧
    ((scan source).map Lexeme.span).Pairwise (fun a b => a.start < b.start ∧ a.stop ≤ b.start) ∧
    (∀ gap ∈ Span.gaps 0 source.utf8ByteSize ((scan source).map Lexeme.span),
      ∀ c ∈ (gap.text source).toList, isBlank c = true) ∧
    (∀ offset < source.utf8ByteSize,
      ((scan source).map Lexeme.span ++
        Span.gaps 0 source.utf8ByteSize ((scan source).map Lexeme.span)).countP
          (·.contains offset) = 1) ∧
    (scan source).length ≤ source.utf8ByteSize := by
  have hascending := ascending_scan source
  refine ⟨?_, hascending.pairwise, ?_, ?_, ?_⟩
  · intro lexeme hlexeme
    obtain ⟨piece, hat, hspells⟩ := (tiles_scan source).isAt hlexeme
    have hbounds := hascending.bounds (List.mem_map_of_mem hlexeme)
    exact ⟨hbounds.2.1, hbounds.2.2, hat.isValid.1, hat.isValid.2, hat.text_eq ▸ hspells.scan⟩
  · intro gap hgap
    rw [← byteLength_toList, ← Nat.zero_add (byteLength _)] at hgap
    obtain ⟨blanks, hat, hblanks⟩ := (tiles_scan source).isAt_gap hgap
    rw [hat.text_eq, String.toList_ofList]
    exact hblanks
  · intro offset hoffset
    rw [hascending.countP_contains, if_pos ⟨Nat.zero_le offset, hoffset⟩]
  · have := hascending.add_length_le
    rwa [Nat.zero_add, List.length_map] at this

end Lexer

end Protobuf

import Mathlib.Data.List.DropRight
import Mathlib.Data.Prod.Lex
import Protobuf.Proofs.Source.Partition

/-! Lines and columns of the positions of a text.

The character boundaries of a text are its positions in the sense of `String.Pos`. A character moves
the line and column forward (`Position.key_lt_step`), so a run of characters does, and the line and
column of a boundary are those after the characters in front of it (`locate_pos`). From this follow
the order of boundaries, what an offset between two of them means, and the counts that a line and a
column stand for (`locate_exact`). -/
namespace Protobuf.Position

/-! ### Runs of characters -/

/-- Positions are ordered by line, then by column. -/
def key (p : Position) : ℕ ×ₗ ℕ :=
  toLex (p.line, p.column)

theorem key_lt_step (p : Position) (c : Char) : p.key < (p.step c).key := by
  rw [key, key, Prod.Lex.toLex_lt_toLex, step]
  split
  · exact .inl (Nat.lt_succ_self _)
  · exact .inr ⟨rfl, Nat.lt_succ_self _⟩

theorem key_le_foldl (p : Position) (chars : List Char) : p.key ≤ (chars.foldl step p).key := by
  induction chars generalizing p with
  | nil => exact le_rfl
  | cons c chars ih => exact (key_lt_step p c).le.trans (ih (p.step c))

theorem key_lt_foldl (p : Position) {chars : List Char} (h : chars ≠ []) :
    p.key < (chars.foldl step p).key := by
  obtain ⟨c, chars, rfl⟩ := List.exists_cons_of_ne_nil h
  exact (key_lt_step p c).trans_le (key_le_foldl (p.step c) chars)

theorem line_foldl (p : Position) (chars : List Char) :
    (chars.foldl step p).line = p.line + chars.count '\n' := by
  induction chars generalizing p with
  | nil => rfl
  | cons c chars ih =>
    rw [List.foldl_cons, ih, List.count_cons, step]
    by_cases hc : c = '\n'
    · simp only [hc, if_true, beq_self_eq_true]
      omega
    · simp only [hc, if_false, beq_iff_eq, Nat.add_zero]

/-- A column counts the characters behind the last line feed. -/
theorem column_foldl (chars : List Char) (line : Nat) :
    (chars.foldl step ⟨line, 1⟩).column = (chars.rtakeWhile (· ≠ '\n')).length + 1 := by
  -- From the end, since a line feed discards the columns in front of it.
  induction chars using List.reverseRecOn with
  | nil => rfl
  | append_singleton chars c ih =>
    rw [List.foldl_concat, List.rtakeWhile_concat, step]
    by_cases hc : c = '\n'
    · simp [hc]
    · simp [hc, ih]

/-! ### Walking through a text -/

theorem walk_append (p : Position) (before after : List Char) (offset : Nat) :
    walk p (before ++ after) (byteLength before + offset) =
      walk (before.foldl step p) after offset := by
  induction before generalizing p with
  | nil => rw [byteLength, Nat.zero_add]; rfl
  | cons c before ih =>
    have hrest : byteLength (c :: before) + offset - c.utf8Size = byteLength before + offset := by
      rw [byteLength]
      omega
    rw [List.cons_append, walk, if_neg (by rw [byteLength]; omega), hrest, ih]
    rfl

/-- The walk stops in front of a character that reaches beyond the offset. -/
theorem walk_stops (p : Position) {text : List Char} {offset : Nat}
    (h : ∀ c, text.head? = some c → offset < c.utf8Size) : walk p text offset = p := by
  cases text with
  | nil => rfl
  | cons c text => rw [walk, if_pos (h c rfl)]

/-! ### Boundaries of characters -/

variable {text : String}

/-- The characters in front of a boundary. -/
def upTo (p : text.Pos) : List Char :=
  (text.sliceTo p).copy.toList

theorem locate_of_splits {p : text.Pos} {before after : String} (h : p.Splits before after)
    (extra : Nat) :
    locate text (p.offset.byteIdx + extra) =
      walk (before.toList.foldl step ⟨1, 1⟩) after.toList extra := by
  have hchars : text.toList = before.toList ++ after.toList := by
    rw [h.eq_append, String.toList_append]
  have hoffset : p.offset.byteIdx = byteLength before.toList := by
    rw [h.offset_eq_rawEndPos, String.byteIdx_rawEndPos, byteLength_toList]
  rw [locate, hchars, hoffset, walk_append]

theorem locate_pos (p : text.Pos) :
    locate text p.offset.byteIdx = (upTo p).foldl step ⟨1, 1⟩ :=
  (locate_of_splits p.splits 0).trans (walk_stops _ fun c _ => c.utf8Size_pos)

/-- An offset before the next boundary means this one. -/
theorem locate_within (p : text.Pos) (h : p ≠ text.endPos) {extra : Nat}
    (hextra : extra < (p.get h).utf8Size) :
    locate text (p.offset.byteIdx + extra) = (upTo p).foldl step ⟨1, 1⟩ := by
  refine (locate_of_splits (p.splits_next_right h) extra).trans (walk_stops _ fun c hc => ?_)
  rw [String.toList_append, String.toList_singleton, List.singleton_append, List.head?_cons,
    Option.some.injEq] at hc
  exact hc ▸ hextra

/-- An offset behind the last boundary means that one. -/
theorem locate_beyond (text : String) (extra : Nat) :
    locate text (text.utf8ByteSize + extra) = text.toList.foldl step ⟨1, 1⟩ := by
  have hwalk := locate_of_splits text.splits_endPos extra
  rwa [String.offset_endPos, String.byteIdx_rawEndPos, String.toList_empty, walk] at hwalk

theorem key_locate_lt {a b : text.Pos} (h : a < b) :
    (locate text a.offset.byteIdx).key < (locate text b.offset.byteIdx).key := by
  obtain ⟨between, hne, hupTo, -⟩ := (a.splits.lt_iff_exists_eq_append b.splits).mp h
  have hchars : upTo b = upTo a ++ between.toList := by
    rw [upTo, hupTo, String.toList_append, upTo]
  rw [locate_pos, locate_pos, hchars, List.foldl_append]
  exact key_lt_foldl _ (fun hnil => hne (String.toList_eq_nil_iff.mp hnil))

theorem pos_eq_of_locate_eq {a b : text.Pos}
    (h : locate text a.offset.byteIdx = locate text b.offset.byteIdx) : a = b := by
  have hab : ¬ a < b := fun hlt => (key_locate_lt hlt).ne (congrArg key h)
  have hba : ¬ b < a := fun hlt => (key_locate_lt hlt).ne (congrArg key h.symm)
  exact Std.le_antisymm (Std.not_lt.mp hba) (Std.not_lt.mp hab)

/-- **A line and column names one boundary of the text.** Boundaries that follow one another have
ascending lines and columns, so different ones have different ones. An offset inside a character
means its start and an offset behind the text its end. The line counts the line feeds in front of a
boundary, and the column the characters behind the last of them. -/
theorem locate_exact (text : String) :
    (∀ a b : text.Pos, a < b →
      (locate text a.offset.byteIdx).key < (locate text b.offset.byteIdx).key) ∧
    (∀ a b : text.Pos, locate text a.offset.byteIdx = locate text b.offset.byteIdx → a = b) ∧
    (∀ (p : text.Pos) (h : p ≠ text.endPos) (offset : Nat), p.offset.byteIdx ≤ offset →
      offset < (p.next h).offset.byteIdx →
      locate text offset = locate text p.offset.byteIdx) ∧
    (∀ offset, text.utf8ByteSize ≤ offset →
      locate text offset = locate text text.utf8ByteSize) ∧
    ∀ p : text.Pos,
      (locate text p.offset.byteIdx).line = (upTo p).count '\n' + 1 ∧
      (locate text p.offset.byteIdx).column = ((upTo p).rtakeWhile (· ≠ '\n')).length + 1 := by
  refine ⟨fun a b => key_locate_lt, fun a b => pos_eq_of_locate_eq, ?_, ?_, ?_⟩
  · intro p h offset hmin hmax
    obtain ⟨extra, rfl⟩ := Nat.exists_eq_add_of_le hmin
    rw [p.byteIdx_offset_next h] at hmax
    rw [locate_within p h (Nat.lt_of_add_lt_add_left hmax), locate_pos]
  · intro offset hmin
    obtain ⟨extra, rfl⟩ := Nat.exists_eq_add_of_le hmin
    rw [locate_beyond, ← locate_beyond text 0]
    rfl
  · intro p
    rw [locate_pos, line_foldl, column_foldl]
    exact ⟨Nat.add_comm .., rfl⟩

-- The second byte of a character, the line feed itself, and an offset behind the end.
example : [1, 2, 9].map (locate "é\nx") = [⟨1, 1⟩, ⟨1, 2⟩, ⟨2, 2⟩] := by decide

end Protobuf.Position

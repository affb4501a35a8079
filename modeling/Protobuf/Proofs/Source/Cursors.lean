import Protobuf.Source.Parser

/-! What a cursor has in front of it.

How many lexemes were taken depends on how far ahead a parser has looked. What is left to read does
not: the words that were not passed over (`rest`), and the faults that are recorded once all lexemes
are taken (`allFaults`), are the same before and after a word is looked at. -/
namespace Protobuf

/-- The words among lexemes. -/
def Parser.words (lexemes : List Lexeme) : List Word :=
  lexemes.filterMap Lexeme.word?

namespace Cursor
open Protobuf.Parser (words)

variable {c : Cursor} {w : Word}

/-- The words that were not passed over yet. -/
def rest (c : Cursor) : List Word :=
  c.seen.toList ++ words c.lexemes

/-- The faults that are recorded, and those of the lexemes that were not taken yet. -/
def allFaults (c : Cursor) : List Fault :=
  c.faults ++ c.lexemes.flatMap (·.faults)

@[simp] theorem rest_start (text : String) : (start text).rest = words (Lexer.scan text) := rfl

theorem rest_of_seen (h : c.seen = some w) : c.rest = w :: words c.lexemes := by
  rw [rest, h]
  rfl

theorem length_rest_lt (c : Cursor) : c.rest.length < c.limit := by
  have hseen : c.seen.toList.length ≤ 1 := Option.length_toList_le
  have hwords : (words c.lexemes).length ≤ c.lexemes.length := List.length_filterMap_le ..
  rw [rest, List.length_append, limit]
  omega

/-- Faults that are recorded come on top of those to come. -/
theorem allFaults_record (c : Cursor) (faults : List Fault) :
    { c with faults := c.faults ++ faults }.allFaults.Perm (c.allFaults ++ faults) := by
  simp only [allFaults, List.append_assoc]
  exact List.perm_append_comm.append_left c.faults

theorem length_allFaults_lt (c : Cursor) {faults : List Fault} (h : faults ≠ []) :
    c.allFaults.length < { c with faults := c.faults ++ faults }.allFaults.length := by
  rw [(c.allFaults_record faults).length_eq, List.length_append]
  exact Nat.lt_add_of_pos_right (List.length_pos_iff.mpr h)

/-- All lexemes were taken, and no word is left. -/
structure Ended (c : Cursor) : Prop where
  seen : c.seen = none
  lexemes : c.lexemes = []

theorem Ended.rest (h : c.Ended) : c.rest = [] := by
  rw [Cursor.rest, h.seen, h.lexemes]
  rfl

/-- The faults of all lexemes are recorded then. -/
theorem Ended.allFaults (h : c.Ended) : c.allFaults = c.faults := by
  rw [Cursor.allFaults, h.lexemes, List.flatMap_nil, List.append_nil]

/-! ### Looking at a word -/

theorem take_spec (faults : List Fault) (lexemes : List Lexeme) :
    (take faults lexemes).seen = (words lexemes).head? ∧
      (take faults lexemes).rest = words lexemes ∧
      (take faults lexemes).allFaults = faults ++ lexemes.flatMap (·.faults) := by
  induction lexemes generalizing faults with
  | nil => exact ⟨rfl, rfl, rfl⟩
  | cons l lexemes ih =>
    rw [take]
    cases hword : l.word? with
    | none =>
      rw [words, List.filterMap_cons_none hword, List.flatMap_cons, ← List.append_assoc]
      exact ih (faults ++ l.faults)
    | some w =>
      rw [words, List.filterMap_cons_some hword, List.flatMap_cons, ← List.append_assoc]
      exact ⟨rfl, rfl, rfl⟩

theorem look_spec (c : Cursor) :
    c.look.seen = c.rest.head? ∧ c.look.rest = c.rest ∧ c.look.allFaults = c.allFaults := by
  obtain ⟨seen, lexemes, faults⟩ := c
  cases seen with
  | some w => exact ⟨rfl, rfl, rfl⟩
  | none => exact take_spec faults lexemes

theorem look_seen (c : Cursor) : c.look.seen = c.rest.head? := c.look_spec.1

@[simp] theorem look_rest (c : Cursor) : c.look.rest = c.rest := c.look_spec.2.1

@[simp] theorem look_allFaults (c : Cursor) : c.look.allFaults = c.allFaults := c.look_spec.2.2

theorem take_of_words_nil {lexemes : List Lexeme} (h : words lexemes = []) (faults : List Fault) :
    take faults lexemes = ⟨none, [], faults ++ lexemes.flatMap (·.faults)⟩ := by
  induction lexemes generalizing faults with
  | nil => rw [List.flatMap_nil, List.append_nil, take]
  | cons l lexemes ih =>
    have hword : l.word? = none := List.forall_none_of_filterMap_eq_nil h l List.mem_cons_self
    rw [words, List.filterMap_cons_none hword] at h
    rw [take, hword, List.flatMap_cons, ← List.append_assoc]
    exact ih h (faults ++ l.faults)

/-- Where no word is left, looking for one takes all lexemes and records their faults. -/
theorem look_of_rest_nil (h : c.rest = []) : c.look = ⟨none, [], c.allFaults⟩ := by
  obtain ⟨seen, lexemes, faults⟩ := c
  obtain ⟨hseen, hwords⟩ := List.append_eq_nil_iff.mp h
  cases seen with
  | some w => cases hseen
  | none => exact take_of_words_nil hwords faults

end Cursor

end Protobuf

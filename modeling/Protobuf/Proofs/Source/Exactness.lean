import Protobuf.Proofs.Source.Recovery

/-! The parser accepts exactly its grammar.

What is read without a fault is a phrase, and a phrase is read without a fault. For a whole text
this says that it is parsed if and only if it is not too large and its tokens, without comments, are
a file. Two conditions keep apart what the grammar of tokens is not about: the text has no lexical
faults, and no services, whose bodies are passed over unread. -/
namespace Protobuf.Grammar
open Decl Protobuf.Parser

theorem exists_parse_iff (name text : String) :
    (∃ f, parse name text = .ok f) ↔ (read text).2 = [] := by
  rw [parse]
  cases read text with
  | mk result faults =>
    have hnone : SourceError.ofFaults? name text faults = none ↔ faults = [] :=
      Report.ofSorted?_mergeSort_eq_none_iff
    rw [← hnone]
    dsimp only
    cases SourceError.ofFaults? name text faults with
    | none => exact ⟨fun _ => rfl, fun _ => ⟨_, rfl⟩⟩
    | some e => exact ⟨nofun, nofun⟩

/-- A text is read without a fault if it is not too large and its lexemes are. -/
theorem read_faults_eq_nil_iff (text : String) :
    (read text).2 = [] ↔ text.utf8ByteSize ≤ maxSize ∧ (file (.start text)).2.allFaults = [] := by
  rw [read]
  split
  · rename_i h
    exact ⟨nofun, fun hsmall => absurd hsmall.1 (Nat.not_le_of_lt h)⟩
  · rename_i h
    obtain ⟨f, c, _, hrun, hended, _⟩ := file_runs (.start text)
    rw [hrun, hended.allFaults]
    exact (and_iff_right (Nat.le_of_not_lt h)).symm

/-- What is parsed was read as a file, without a fault in it or in a lexeme. -/
theorem file_of_parse {name text : String} {f : File} (h : parse name text = .ok f) :
    (Cursor.start text).allFaults = [] ∧
      ∃ c, file (.start text) = (some f, c) ∧ c.allFaults = [] := by
  have hnil := (exists_parse_iff name text).mp ⟨f, h⟩
  obtain ⟨hsize, hfaults⟩ := (read_faults_eq_nil_iff text).mp hnil
  obtain ⟨g, c, _, hrun, _⟩ := file_runs (.start text)
  have hread : read text = (some g, c.faults) := by
    rw [read, if_neg (Nat.not_lt_of_le hsize), hrun]
  have hnone : SourceError.ofFaults? name text c.faults = none := by
    rw [hread] at hnil
    exact Report.ofSorted?_mergeSort_eq_none_iff.mpr hnil
  rw [parse, hread] at h
  dsimp only at h
  rw [hnone] at h
  cases h
  exact ⟨(mem_of_faults_nil reads_file hfaults).1, c, hrun, by rwa [hrun] at hfaults⟩

/-- Lexemes without a service are read without a fault if and only if they have none and their words
are a file. -/
theorem file_faults_eq_nil_iff {c : Cursor} (hservice : .ident "service" ∉ tokens c.rest) :
    (file c).2.allFaults = [] ↔ c.allFaults = [] ∧ tokens c.rest ∈ Phrase.file := by
  constructor
  · intro h
    obtain ⟨hlexical, _, hmem⟩ := mem_of_faults_nil reads_file h
    exact ⟨hlexical, hmem hservice⟩
  · intro h
    obtain ⟨f, c', _, hpasses⟩ := accepts_file c c.rest [] (List.append_nil _).symm h.2 rfl
    rw [hpasses.run, hpasses.faults]
    exact h.1

/-- **The parser accepts exactly its grammar.** A text without lexical faults in which no service
occurs is parsed, under any name, if and only if it is not too large and its tokens are a file. -/
theorem parse_exact (name text : String) (hlexical : ∀ l ∈ Lexer.scan text, l.faults = [])
    (hservice : .ident "service" ∉ tokens (words (Lexer.scan text))) :
    (∃ f, parse name text = .ok f) ↔
      text.utf8ByteSize ≤ maxSize ∧ tokens (words (Lexer.scan text)) ∈ Phrase.file := by
  have hnone : (Cursor.start text).allFaults = [] := List.flatMap_eq_nil_iff.mpr hlexical
  have hfile := file_faults_eq_nil_iff (c := .start text) hservice
  rw [hnone, eq_self, true_and, Cursor.rest_start] at hfile
  rw [exists_parse_iff, read_faults_eq_nil_iff, hfile]

/-- Keywords may be names: here of a message, of the type of a field, and of the field. -/
theorem parse_exact_keywords :
    let text := "message map \x7b optional enum to = 1; \x7d"
    (∀ l ∈ Lexer.scan text, l.faults = []) ∧ .ident "service" ∉ tokens (words (Lexer.scan text)) ∧
      tokens (words (Lexer.scan text)) ∈ Phrase.file := by
  intro text
  have hlexical : ∀ l ∈ Lexer.scan text, l.faults = [] := by decide +kernel
  have hservice : .ident "service" ∉ tokens (words (Lexer.scan text)) := by decide +kernel
  have hread : (read text).2 = [] := by decide +kernel
  have hparse := (exists_parse_iff "a.proto" text).mpr hread
  exact ⟨hlexical, hservice, ((parse_exact "a.proto" text hlexical hservice).mp hparse).2⟩

end Protobuf.Grammar

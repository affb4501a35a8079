import Protobuf.Proofs.Source.Recovery

/-! Lexical faults survive parsing.

They are found in lexemes, when these are taken, apart from one kind, which shows only where a
string is meant to be text and is not UTF-8. A report is sorted, with lexical faults first.

`lexical_faults_exact`: whatever the text, all its lexemes are taken, those behind the last word
too, and the lexical faults of its report are those of its lexemes, each as often as there. -/
namespace Protobuf

/-- Whether a fault is found in a lexeme. That a string is not UTF-8 is lexical, but it is found
later, where text is meant. -/
def Fault.isFoundInToken : Fault → Bool
  | .invalidUtf8 _ => false
  | fault => fault.isLexical

theorem Fault.isLexical_of_isFoundInToken {fault : Fault} (h : fault.isFoundInToken = true) :
    fault.isLexical = true := by
  cases fault <;> first | rfl | cases h

/-- All faults of a report. -/
def Report.all {α : Type} (r : Report α) : List α :=
  r.first :: r.related

theorem Report.all_of_ofSorted? {α : Type} {file text : String} {start : α → Option Nat}
    {sorted : List α} {r : Report α} (h : ofSorted? file text start sorted = some r) :
    r.all = sorted := by
  cases sorted with
  | nil => cases h
  | cons first related =>
    cases h
    rfl

namespace Lexer

theorem isFoundInToken_of_mem_intToken {start radix length : Nat} {digits after : List Char}
    {fault : Fault} (h : fault ∈ (intToken start radix digits length after).faults) :
    fault.isFoundInToken = true := by
  unfold intToken spaceFaults at h
  grind [Fault.isFoundInToken, Fault.isLexical]

theorem isFoundInToken_of_mem_number {start : Nat} {text : List Char} {fault : Fault}
    (h : fault ∈ (number start text).faults) : fault.isFoundInToken = true := by
  unfold number at h
  dsimp only at h
  split at h
  · cases h
  · split at h
    · cases h
    · split at h
      · split at h <;> exact isFoundInToken_of_mem_intToken h
      · split at h <;> exact isFoundInToken_of_mem_intToken h
      · exact isFoundInToken_of_mem_intToken h

theorem isFoundInToken_of_mem_stringBody {start pos : Nat} {quote : Char} {text : List Char}
    {fault : Fault} (h : fault ∈ (stringBody start quote pos text).faults) :
    fault.isFoundInToken = true := by
  fun_induction stringBody start quote pos text with
  | case1 | case2 | case3 => grind [Fault.isFoundInToken, Fault.isLexical]
  | case4 | case5 | case6 => grind [Fault.isFoundInToken, Fault.isLexical, Body.cons]

theorem isFoundInToken_of_mem_token {start : Nat} {c : Char} {rest : List Char} {fault : Fault}
    (h : fault ∈ (token start c rest).faults) : fault.isFoundInToken = true := by
  have hinvalid : fault ∈ (invalid start c).faults → fault.isFoundInToken = true := by
    intro h
    rw [List.mem_singleton.mp h]
    rfl
  unfold token at h
  split at h
  · cases h
  split at h
  · exact isFoundInToken_of_mem_number h
  split at h
  · exact isFoundInToken_of_mem_number h
  split at h
  · exact isFoundInToken_of_mem_stringBody h
  split at h
  · split at h
    · cases h
    · unfold blockComment at h
      split at h
      · cases h
      · rw [List.mem_singleton.mp h]
        rfl
    · exact hinvalid h
  · split at h
    · cases h
    · exact hinvalid h

theorem isFoundInToken_of_mem_scanFrom {pos : Nat} {text : List Char} {l : Lexeme} {fault : Fault}
    (hl : l ∈ scanFrom pos text) (h : fault ∈ l.faults) : fault.isFoundInToken = true := by
  fun_induction scanFrom pos text with
  | case1 => cases hl
  | case2 pos c rest hblank ih => exact ih hl
  | case3 pos c rest hblank found stop ih =>
    rcases List.mem_cons.mp hl with rfl | hl
    · exact isFoundInToken_of_mem_token h
    · exact ih hl

/-- The faults of the lexemes of a text. -/
def faults (text : String) : List Fault :=
  (scan text).flatMap (·.faults)

theorem isFoundInToken_of_mem_faults {text : String} {fault : Fault} (h : fault ∈ faults text) :
    fault.isFoundInToken = true := by
  obtain ⟨l, hl, hfault⟩ := List.mem_flatMap.mp h
  exact isFoundInToken_of_mem_scanFrom hl hfault

end Lexer

/-! ### Reports -/

namespace Fault

theorem le_trans (a b c : Fault) (hab : a.le b = true) (hbc : b.le c = true) : a.le c = true := by
  unfold le at *
  grind

theorem le_total (a b : Fault) : (a.le b || b.le a) = true := by
  unfold le
  grind

/-- No other fault comes before a lexical one. -/
theorem isLexical_of_le {a b : Fault} (h : a.le b = true) (hb : b.isLexical = true) :
    a.isLexical = true := by
  unfold le at h
  grind

end Fault

namespace SourceError

/-- A report holds all the faults that it is made of. -/
theorem all_perm {file text : String} {faults : List Fault} {e : SourceError}
    (h : ofFaults? file text faults = some e) : e.all.Perm faults := by
  rw [Report.all_of_ofSorted? h]
  exact List.mergeSort_perm faults Fault.le

/-- A report is lexical if any of its faults is, since these come first. -/
theorem isLexical_iff {file text : String} {faults : List Fault} {e : SourceError}
    (h : ofFaults? file text faults = some e) :
    e.isLexical = true ↔ ∃ fault ∈ faults, fault.isLexical = true := by
  have hsorted : e.all.Pairwise fun a b => a.le b = true := by
    rw [Report.all_of_ofSorted? h]
    exact List.pairwise_mergeSort Fault.le_trans Fault.le_total faults
  constructor
  · intro hfirst
    exact ⟨e.first, (all_perm h).mem_iff.mp List.mem_cons_self, hfirst⟩
  · intro hany
    obtain ⟨fault, hfault, hlexical⟩ := hany
    rcases List.mem_cons.mp ((all_perm h).mem_iff.mpr hfault) with rfl | hrelated
    · exact hlexical
    · exact Fault.isLexical_of_le (List.rel_of_pairwise_cons hsorted hrelated) hlexical

end SourceError

namespace Grammar
open Protobuf.Parser

/-- The faults of a text that is not too large are those of its lexemes, which are all taken, and
proper ones. -/
theorem read_runs {text : String} (hsize : text.utf8ByteSize ≤ maxSize) : ∃ f faults more,
    read text = (some f, faults) ∧ faults.Perm (Lexer.faults text ++ more) ∧
      ∀ fault ∈ more, Proper (words (Lexer.scan text)) fault := by
  obtain ⟨f, c, more, hrun, _, hperm, hproper⟩ := file_runs (.start text)
  refine ⟨f, c.faults, more, ?_, hperm, hproper⟩
  rw [read, if_neg (Nat.not_lt_of_le hsize), hrun]

/-- The statement ends at its first fault, but not what is found behind it. The comment that ends
the text is looked into, although no word follows. -/
example : (read "message M \x7b optional # = 1x; \x7d import \"\\xff\" ; /*").2 =
    [.invalidToken ⟨21, 22⟩, .unexpectedToken "a field type" "=" ⟨23, 24⟩, .missingSpace ⟨25, 27⟩,
      .invalidUtf8 ⟨38, 44⟩, .unterminatedComment ⟨47, 49⟩] := by
  decide +kernel

/-- Of the faults of a text, those that are found in lexemes are those of its lexemes. -/
theorem filter_isFoundInToken {text : String} {more : List Fault}
    (h : ∀ fault ∈ more, Proper (words (Lexer.scan text)) fault) :
    (Lexer.faults text ++ more).filter Fault.isFoundInToken = Lexer.faults text := by
  have hmore : more.filter Fault.isFoundInToken = [] := by
    refine List.filter_eq_nil_iff.mpr fun fault hfault hfound => ?_
    have hlexical := Fault.isLexical_of_isFoundInToken hfound
    obtain ⟨_, _, _, _, rfl⟩ := (h fault hfault).lexical hlexical
    cases hfound
  rw [List.filter_append, hmore, List.append_nil]
  exact List.filter_eq_self.mpr fun fault => Lexer.isFoundInToken_of_mem_faults

theorem exists_isLexical_iff {text : String} {more : List Fault}
    (h : ∀ fault ∈ more, Proper (words (Lexer.scan text)) fault) :
    (∃ fault ∈ Lexer.faults text ++ more, fault.isLexical = true) ↔
      Lexer.faults text ≠ [] ∨ ∃ span, .invalidUtf8 span ∈ more := by
  constructor
  · intro hany
    obtain ⟨fault, hfault, hlexical⟩ := hany
    rcases List.mem_append.mp hfault with hfault | hfault
    · exact .inl (List.ne_nil_of_mem hfault)
    · obtain ⟨_, span, _, _, rfl⟩ := (h fault hfault).lexical hlexical
      exact .inr ⟨span, hfault⟩
  · intro hany
    rcases hany with hne | ⟨span, hspan⟩
    · obtain ⟨fault, hfault⟩ := List.exists_mem_of_ne_nil _ hne
      have hlexical := Fault.isLexical_of_isFoundInToken (Lexer.isFoundInToken_of_mem_faults hfault)
      exact ⟨fault, List.mem_append_left more hfault, hlexical⟩
    · exact ⟨_, List.mem_append_right _ hspan, rfl⟩

/-- What a report says of the lexical faults of a text. -/
structure ReportsLexical (text : String) (e : SourceError) : Prop where
  /-- The faults that are found in lexemes are those of the lexemes, each as often as there. -/
  lexemes : (e.all.filter Fault.isFoundInToken).Perm (Lexer.faults text)
  /-- Other lexical faults are about strings of the text that are not UTF-8. -/
  strings : ∀ span, .invalidUtf8 span ∈ e.all →
    NotUtf8 (words (Lexer.scan text)) (.invalidUtf8 span)
  isLexical_iff : e.isLexical = true ↔ Lexer.faults text ≠ [] ∨ ∃ span, .invalidUtf8 span ∈ e.all

theorem reportsLexical_of_perm {name text : String} {faults more : List Fault} {e : SourceError}
    (he : SourceError.ofFaults? name text faults = some e)
    (hfaults : faults.Perm (Lexer.faults text ++ more))
    (hmore : ∀ fault ∈ more, Proper (words (Lexer.scan text)) fault) : ReportsLexical text e := by
  have hperm := (SourceError.all_perm he).trans hfaults
  have hall : ∀ span, .invalidUtf8 span ∈ e.all ↔ .invalidUtf8 span ∈ more := by
    intro span
    rw [hperm.mem_iff, List.mem_append, or_iff_right]
    exact fun h => nomatch Lexer.isFoundInToken_of_mem_faults h
  refine ⟨?_, fun span hspan => (hmore _ ((hall span).mp hspan)).lexical rfl, ?_⟩
  · have hfilter := hperm.filter Fault.isFoundInToken
    rwa [filter_isFoundInToken hmore] at hfilter
  · rw [SourceError.isLexical_iff he]
    simp only [hall, hfaults.mem_iff]
    exact exists_isLexical_iff hmore

/-- **Parsing neither loses nor repeats a lexical fault.** Whatever the text and the faults in it,
the parser takes all its lexemes. If the text is parsed, they have no faults. If not, and unless the
text is too large to be looked at, the lexical faults of the report are those of the lexemes, each
as often as there, and besides them only strings of the text that are not UTF-8; and the report is
lexical if and only if it holds a fault of either kind. -/
theorem lexical_faults_exact (name text : String) :
    (file (.start text)).2.Ended ∧
      match parse name text with
      | .ok _ => Lexer.faults text = []
      | .error e =>
        if maxSize < text.utf8ByteSize then e.all = [.fileTooLarge] else ReportsLexical text e := by
  obtain ⟨_, c, _, hrun, hended, _⟩ := file_runs (.start text)
  refine ⟨by rwa [hrun], ?_⟩
  rw [parse]
  by_cases hsize : maxSize < text.utf8ByteSize
  · rw [read, if_pos hsize]
    dsimp only
    cases he : SourceError.ofFaults? name text [.fileTooLarge] with
    | none => cases Report.ofSorted?_mergeSort_eq_none_iff.mp he
    | some e =>
      dsimp only
      rw [if_pos hsize]
      exact List.perm_singleton.mp (SourceError.all_perm he)
  · obtain ⟨f, faults, more, hread, hperm, hmore⟩ := read_runs (Nat.le_of_not_lt hsize)
    rw [hread]
    dsimp only
    cases he : SourceError.ofFaults? name text faults with
    | none =>
      rw [Report.ofSorted?_mergeSort_eq_none_iff.mp he] at hperm
      exact (List.append_eq_nil_iff.mp hperm.symm.eq_nil).1
    | some e =>
      dsimp only
      rw [if_neg hsize]
      exact reportsLexical_of_perm he hperm hmore

end Grammar

end Protobuf

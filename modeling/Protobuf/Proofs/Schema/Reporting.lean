import Mathlib.Order.Bounds.Basic
import Protobuf.Proofs.Schema.Capture

/-! Which file a report is on.

Flaws are found on two walks, one over the enums of all files and then one over their messages. Each
walk takes the files in order, so its first flaw is in the earliest file that it finds any in. The
report is on the file of the very first flaw: a flaw in an enum of a late file comes before one in a
message of an early file, and then the report is not on the earliest file (`report_on_late_file`).

`link_error_exact` says which file it is on, when that is the earliest one, and what it says of it:
all that both walks have found there, in the order of the text. -/
namespace Protobuf

/-! ### Walks in the order of files -/

/-- Definitions come in the order of their files. -/
structure Outline.InOrder (o : Outline) : Prop where
  messages : o.messages.Pairwise fun a b => a.file ≤ b.file
  enums : o.enums.Pairwise fun a b => a.file ≤ b.file

namespace Outline

/-- What is in one file may stand in front of what is in later ones. -/
theorem InOrder.append {a b : Outline} {file : Nat} (ha : a.InFiles (· = file))
    (hb : b.InFiles (file < ·)) (h : b.InOrder) : (a ++ b).InOrder where
  messages := by
    refine List.pairwise_append.mpr ⟨?_, h.messages, ?_⟩
    · exact List.pairwise_of_forall_mem_list fun x hx y hy =>
        Nat.le_of_eq ((ha.messages x hx).trans (ha.messages y hy).symm)
    · intro x hx y hy
      exact Nat.le_of_lt (ha.messages x hx ▸ hb.messages y hy)
  enums := by
    refine List.pairwise_append.mpr ⟨?_, h.enums, ?_⟩
    · exact List.pairwise_of_forall_mem_list fun x hx y hy =>
        Nat.le_of_eq ((ha.enums x hx).trans (ha.enums y hy).symm)
    · intro x hx y hy
      exact Nat.le_of_lt (ha.enums x hx ▸ hb.enums y hy)

theorem ofFilesFrom_inLater (file i e : Nat) (files : List LoadedFile) :
    (ofFilesFrom file i e files).1.InFiles (file ≤ ·) := by
  induction files generalizing file i e with
  | nil => exact .empty
  | cons f rest ih =>
    have hrest := ih (file + 1) (i + (ofFile file i e f.source).messages.length)
      (e + (ofFile file i e f.source).enums.length)
    rw [ofFilesFrom]
    refine .append (ofFile_inFiles (Nat.le_refl file) i e f.source) ⟨?_, ?_⟩
    · exact fun m hm => Nat.le_of_succ_le (hrest.messages m hm)
    · exact fun x hx => Nat.le_of_succ_le (hrest.enums x hx)

theorem ofFilesFrom_inOrder (file i e : Nat) (files : List LoadedFile) :
    (ofFilesFrom file i e files).1.InOrder := by
  induction files generalizing file i e with
  | nil => exact ⟨.nil, .nil⟩
  | cons f rest ih =>
    rw [ofFilesFrom]
    exact .append (ofFile_inFiles (p := (· = file)) rfl i e f.source)
      (ofFilesFrom_inLater (file + 1) _ _ rest) (ih (file + 1) _ _)

end Outline

/-! ### The order of flaws -/

namespace Flaw

theorem le_trans (a b c : Flaw) (hab : a.le b = true) (hbc : b.le c = true) : a.le c = true := by
  simp only [le, decide_eq_true_eq] at *
  exact Nat.le_trans hab hbc

theorem le_total (a b : Flaw) : (a.le b || b.le a) = true := by
  simp only [le, Bool.or_eq_true, decide_eq_true_eq]
  exact Nat.le_total a.span.start b.span.start

theorem pairwise_mergeSort (flaws : List Flaw) :
    (flaws.mergeSort le).Pairwise fun a b => a.span.start ≤ b.span.start := by
  refine (List.pairwise_mergeSort le_trans le_total flaws).imp ?_
  intro a b hle
  simpa [le] using hle

/-- Flaws that begin at the same place stay in the order they were found in. -/
theorem filter_mergeSort (flaws : List Flaw) (start : Nat) :
    (flaws.mergeSort le).filter (·.span.start == start) =
      flaws.filter (·.span.start == start) := by
  have hsame : (flaws.filter (·.span.start == start)).Pairwise (le · · = true) := by
    refine List.pairwise_of_forall_mem_list fun a ha b hb => ?_
    have ha := eq_of_beq (List.mem_filter.mp ha).2
    have hb := eq_of_beq (List.mem_filter.mp hb).2
    simp [le, ha, hb]
  have hkept := (List.sublist_mergeSort le_trans le_total hsame List.filter_sublist).filter
    (·.span.start == start)
  rw [List.filter_filter] at hkept
  simp only [Bool.and_self] at hkept
  have hlength := ((List.mergeSort_perm flaws le).filter (·.span.start == start)).length_eq
  exact (hkept.eq_of_length hlength.symm).symm

end Flaw

namespace Linking
variable {files : List LoadedFile} {k : Nat}

/-! ### The flaws of a file -/

/-- The flaws in the enums of a file. -/
def enumFlaws (files : List LoadedFile) (k : Nat) : List Flaw :=
  ((Outline.ofFiles files).1.enums.filter (·.file == k)).flatMap
    fun e => (enum (edition files k) e).flaws

/-- The flaws in the messages of a file. -/
def messageFlaws (files : List LoadedFile) (k : Nat) : List Flaw :=
  ((Outline.ofFiles files).1.messages.filter (·.file == k)).flatMap
    fun m => (message (contextOf files k) m).flaws

def flawsOf (files : List LoadedFile) (k : Nat) : List Flaw :=
  enumFlaws files k ++ messageFlaws files k

/-- The findings for a file. -/
def Findings.at (found : Findings) (k : Nat) : List Flaw :=
  (found.filter (·.1 == k)).map (·.2)

theorem Findings.at_append (a b : Findings) (k : Nat) :
    Findings.at (a ++ b) k = Findings.at a k ++ Findings.at b k := by
  simp only [Findings.at, List.filter_append, List.map_append]

theorem Findings.at_ne_nil {found : Findings} :
    Findings.at found k ≠ [] ↔ ∃ flaw, (k, flaw) ∈ found := by
  constructor
  · intro h
    obtain ⟨flaw, hflaw⟩ := List.exists_mem_of_ne_nil _ h
    obtain ⟨x, hx, rfl⟩ := List.mem_map.mp hflaw
    obtain ⟨hx, hfile⟩ := List.mem_filter.mp hx
    exact ⟨x.2, eq_of_beq hfile ▸ hx⟩
  · intro h
    obtain ⟨flaw, hflaw⟩ := h
    have hmem : flaw ∈ Findings.at found k :=
      List.mem_map.mpr ⟨(k, flaw), List.mem_filter.mpr ⟨hflaw, beq_self_eq_true k⟩, rfl⟩
    exact List.ne_nil_of_mem hmem

/-- The findings for a file are the flaws of what is defined there. -/
theorem at_findings {α : Type} (checked : List (Nat × Checked α)) (k : Nat) :
    Findings.at (findings checked) k = (checked.filter (·.1 == k)).flatMap (·.2.flaws) := by
  induction checked with
  | nil => rfl
  | cons c rest ih =>
    have hcons : findings (c :: rest) = c.2.flaws.map (fun flaw => (c.1, flaw)) ++ findings rest :=
      List.flatMap_cons
    rw [hcons, Findings.at_append, ih]
    by_cases hc : c.1 == k
    · simp [Findings.at, List.filter_map, Function.comp_def, hc]
    · simp [Findings.at, List.filter_map, Function.comp_def, hc]

theorem at_enumsOf (files : List LoadedFile) (k : Nat) :
    Findings.at (findings (enumsOf files)) k = enumFlaws files k := by
  rw [at_findings, enumsOf, checkEnums, List.filter_map, List.flatMap_map]
  refine List.flatMap_congr fun e he => ?_
  have hfile : e.file = k := by simpa using (List.mem_filter.mp he).2
  rw [hfile]

theorem at_messagesOf (files : List LoadedFile) (k : Nat) :
    Findings.at (findings (messagesOf files)) k = messageFlaws files k := by
  rw [at_findings, messagesOf, checkMessages, List.filter_map, List.flatMap_map]
  refine List.flatMap_congr fun m hm => ?_
  have hfile : m.file = k := by simpa using (List.mem_filter.mp hm).2
  rw [hfile]
  rfl

theorem at_found (hfree : ClashFree files) (k : Nat) :
    Findings.at (found files) k = flawsOf files k := by
  rw [found_of_clashFree hfree, Findings.at_append, at_enumsOf, at_messagesOf, flawsOf]

theorem found_ne_nil_iff (hfree : ClashFree files) :
    found files ≠ [] ↔ ∃ k, flawsOf files k ≠ [] := by
  simp only [← at_found hfree, Findings.at_ne_nil]
  constructor
  · intro h
    obtain ⟨x, hx⟩ := List.exists_mem_of_ne_nil _ h
    exact ⟨x.1, x.2, hx⟩
  · intro h
    obtain ⟨k, flaw, hflaw⟩ := h
    exact List.ne_nil_of_mem hflaw

/-! ### The first finding -/

/-- On a walk through files in order, the first finding is in the earliest file that has any. -/
theorem isLeast_of_head {α : Type} {checked : List (Nat × Checked α)}
    (h : checked.Pairwise fun a b => a.1 ≤ b.1) {flaw : Flaw} {rest : Findings}
    (hhead : findings checked = (k, flaw) :: rest) :
    IsLeast {j | Findings.at (findings checked) j ≠ []} k := by
  have hsorted : (findings checked).Pairwise fun a b => a.1 ≤ b.1 := by
    refine List.pairwise_flatMap.mpr ⟨?_, ?_⟩
    · intro c _
      exact List.pairwise_map.mpr (List.pairwise_of_forall fun _ _ => Nat.le_refl c.1)
    · refine h.imp fun hle x hx y hy => ?_
      obtain ⟨_, _, rfl⟩ := List.mem_map.mp hx
      obtain ⟨_, _, rfl⟩ := List.mem_map.mp hy
      exact hle
  rw [hhead] at hsorted ⊢
  refine ⟨Findings.at_ne_nil.mpr ⟨flaw, List.mem_cons_self⟩, ?_⟩
  intro j hj
  obtain ⟨other, hother⟩ := Findings.at_ne_nil.mp hj
  rcases List.mem_cons.mp hother with hsame | hrest
  · cases hsame
    exact Nat.le_refl k
  · exact List.rel_of_pairwise_cons hsorted hrest

/-- The files of the first findings: those of the enums count first. -/
theorem isLeast_of_found (hfree : ClashFree files) {flaw : Flaw} {rest : Findings}
    (hhead : found files = (k, flaw) :: rest) :
    IsLeast {j | enumFlaws files j ≠ []} k ∨
      (∀ j, enumFlaws files j = []) ∧ IsLeast {j | messageFlaws files j ≠ []} k := by
  have horder : (Outline.ofFiles files).1.InOrder := Outline.ofFilesFrom_inOrder 0 0 0 files
  rw [found_of_clashFree hfree] at hhead
  simp only [← at_enumsOf, ← at_messagesOf]
  cases henums : findings (enumsOf files) with
  | nil =>
    rw [henums, List.nil_append] at hhead
    exact .inr ⟨fun j => rfl, isLeast_of_head (List.pairwise_map.mpr horder.messages) hhead⟩
  | cons first others =>
    rw [henums, List.cons_append] at hhead
    cases hhead
    rw [← henums]
    exact .inl (isLeast_of_head (List.pairwise_map.mpr horder.enums) henums)

/-- That file is the earliest with flaws, unless only messages of an earlier one have any. -/
theorem isLeast_flawsOf_iff
    (h : IsLeast {j | enumFlaws files j ≠ []} k ∨
      (∀ j, enumFlaws files j = []) ∧ IsLeast {j | messageFlaws files j ≠ []} k) :
    IsLeast {j | flawsOf files j ≠ []} k ↔ (∀ j, enumFlaws files j = []) ∨
      ∃ j, IsLeast {j | flawsOf files j ≠ []} j ∧ enumFlaws files j ≠ [] := by
  have hof : ∀ {j}, enumFlaws files j ≠ [] → flawsOf files j ≠ [] := fun hj hnil =>
    hj (List.append_eq_nil_iff.mp hnil).1
  rcases h with hleast | ⟨hnone, hleast⟩
  · constructor
    · exact fun hk => .inr ⟨k, hk, hleast.1⟩
    · intro h
      rcases h with hnone | ⟨j, hj, henum⟩
      · exact absurd (hnone k) hleast.1
      · have hsame : k = j := Nat.le_antisymm (hleast.2 henum) (hj.2 (hof hleast.1))
        rwa [hsame]
  · have hmessages : ∀ j, flawsOf files j = messageFlaws files j := by
      intro j
      rw [flawsOf, hnone j, List.nil_append]
    simp only [hmessages]
    exact ⟨fun _ => .inl hnone, fun _ => hleast⟩

/-! ### What a report says -/

/-- A report is on the file of the first finding, with all findings for it. -/
theorem exists_of_report? {found : Findings} {e : SchemaError} (h : report? files found = some e) :
    ∃ k f flaw rest, found = (k, flaw) :: rest ∧ files[k]? = some f ∧ e.file = f.source.name ∧
      e.all = (Findings.at found k).mergeSort Flaw.le := by
  cases found with
  | nil => cases h
  | cons first rest =>
    obtain ⟨k, flaw⟩ := first
    simp only [report?] at h
    split at h
    · cases h
    · rename_i f hf
      refine ⟨k, f, flaw, rest, rfl, hf, ?_, Report.all_of_ofSorted? h⟩
      rw [SchemaError.ofFlaws?] at h
      unfold Report.ofSorted? at h
      split at h
      · cases h
      · cases h
        rfl

/-- Linking fails if some file has a flaw. -/
theorem exists_error_iff (hfree : ClashFree files) :
    (∃ e, link files = .error e) ↔ ∃ k, flawsOf files k ≠ [] := by
  rw [← found_ne_nil_iff hfree, Ne, ← exists_link_iff_found]
  cases link files with
  | ok s => simp
  | error e => simp

/-- **What a report is on.** Let the names of some files not clash. They are linked if no file has
a flaw; otherwise there is a report. It is on the earliest file with a flaw in an enum, or on the
earliest with a flaw in a message if no enum has any. So it is on the earliest file with any flaw
unless an enum has a flaw somewhere, but none in that file. It says of its file all flaws and
nothing of the others, in the order of their places, and in that they were found in where places
are equal. -/
theorem link_error_exact (hfree : ClashFree files) :
    ((∃ e, link files = .error e) ↔ ∃ k, flawsOf files k ≠ []) ∧
    ∀ e, link files = .error e → ∃ k f, files[k]? = some f ∧ e.file = f.source.name ∧
      (IsLeast {j | enumFlaws files j ≠ []} k ∨
        (∀ j, enumFlaws files j = []) ∧ IsLeast {j | messageFlaws files j ≠ []} k) ∧
      (IsLeast {j | flawsOf files j ≠ []} k ↔ (∀ j, enumFlaws files j = []) ∨
        ∃ j, IsLeast {j | flawsOf files j ≠ []} j ∧ enumFlaws files j ≠ []) ∧
      e.all.Perm (flawsOf files k) ∧
      (e.all.Pairwise fun a b => a.span.start ≤ b.span.start) ∧
      ∀ start, e.all.filter (·.span.start == start) =
        (flawsOf files k).filter (·.span.start == start) := by
  refine ⟨exists_error_iff hfree, fun e he => ?_⟩
  · obtain ⟨k, f, flaw, rest, hhead, hf, hname, hall⟩ := exists_of_report? (link_eq_error_iff.mp he)
    rw [at_found hfree] at hall
    have hleast := isLeast_of_found hfree hhead
    refine ⟨k, f, hf, hname, hleast, isLeast_flawsOf_iff hleast, ?_, ?_, ?_⟩
    · rw [hall]
      exact List.mergeSort_perm _ _
    · rw [hall]
      exact Flaw.pairwise_mergeSort _
    · intro start
      rw [hall, Flaw.filter_mergeSort]

end Linking

/-! ### A flaw in a message and one in a later enum -/

namespace Draft

def noteText : String :=
  "message Note \x7b optional int32 size=0; \x7d"

def listText : String :=
  "import \"note.proto\"; message List \x7b optional int32 size=0; \x7d enum Order \x7b\x7d"

def files : List LoadedFile :=
  [⟨⟨"note.proto", none, noteText, (Grammar.read noteText).1.getD (.empty .proto2)⟩, false⟩,
    ⟨⟨"list.proto", none, listText, (Grammar.read listText).1.getD (.empty .proto2)⟩, true⟩]

/-- What is read in the two files, and what the walks find in them: the flaw of an enum is found
first, though it is in the second file. The checks stand together, since each reads both texts. -/
theorem facts :
    ((Grammar.read noteText).2 = [] ∧ (Grammar.read listText).2 = []) ∧
      files.map (·.source.imports) = [[], ["note.proto"]] ∧ Linking.ClashFree files ∧
      (Linking.found files).head?.map (·.1) = some 1 ∧
      Linking.enumFlaws files 0 = [] ∧ Linking.flawsOf files 0 ≠ [] ∧
      Linking.enumFlaws files 1 ≠ [] ∧ Linking.flawsOf files 1 =
        [.emptyEnum "Order" ⟨66, 71⟩, .invalidFieldNumber "size" "0" ⟨56, 57⟩] := by
  decide +kernel

theorem files_parsed : ∀ f ∈ files,
    SourceFile.ofText f.source.name f.source.path f.source.text = .ok f.source := by
  obtain ⟨⟨hnote, hlist⟩, _⟩ := facts
  intro f hf
  rcases List.mem_cons.mp hf with rfl | hf
  · exact SourceFile.ofText_eq _ _ hnote
  · exact SourceFile.forall_mem_ofText hlist f hf

theorem files_importsFirst : Visibility.ImportsFirst files := by
  obtain ⟨_, himports, _⟩ := facts
  intro k f hf name hname
  have hk : (files.map (·.source.imports))[k]? = some f.source.imports := by
    rw [List.getElem?_map, hf]
    rfl
  rw [himports] at hk
  match k with
  | 0 =>
    rw [← Option.some.inj hk] at hname
    cases hname
  | 1 =>
    rw [← Option.some.inj hk] at hname
    exact ⟨0, _, Nat.zero_lt_one, rfl, (List.mem_singleton.mp hname).symm⟩
  | _ + 2 => cases hk

theorem exists_link_error : ∃ e, Linking.link files = .error e ∧ e.file = "list.proto" := by
  obtain ⟨_, _, hfree, hfirst, _, hearly, _⟩ := facts
  obtain ⟨e, he⟩ := (Linking.exists_error_iff hfree).mpr ⟨0, hearly⟩
  obtain ⟨k, f, flaw, rest, hhead, hf, hname, _⟩ :=
    Linking.exists_of_report? (Linking.link_eq_error_iff.mp he)
  rw [hhead] at hfirst
  cases hfirst
  cases hf
  exact ⟨e, he, hname⟩

end Draft

namespace Linking

/-- Both walks find a flaw in the second file, and the report has both. -/
theorem link_error_exact_draft :
    ClashFree Draft.files ∧ ∃ e, link Draft.files = .error e ∧ e.file = "list.proto" ∧
      e.all.Perm [.emptyEnum "Order" ⟨66, 71⟩, .invalidFieldNumber "size" "0" ⟨56, 57⟩] ∧
      e.all.Pairwise fun a b => a.span.start ≤ b.span.start := by
  obtain ⟨_, _, hfree, _, hearly, _, hlate, hflaws⟩ := Draft.facts
  obtain ⟨hiff, hreport⟩ := link_error_exact hfree
  obtain ⟨e, he⟩ := hiff.mpr ⟨1, by rw [hflaws]; nofun⟩
  obtain ⟨k, f, hf, hname, hleast, _, hperm, hsorted, _⟩ := hreport e he
  have hk : k = 1 := by
    have hleast := hleast.resolve_right fun hnone => hlate (hnone.1 1)
    have hle : k ≤ 1 := hleast.2 hlate
    have hne : k ≠ 0 := fun hzero => hleast.1 (hzero ▸ hearly)
    omega
  rw [hk] at hf hperm
  cases hf
  exact ⟨hfree, e, he, hname, hflaws ▸ hperm, hsorted⟩

/-- The report need not be on the earliest file in which flaws are found. -/
theorem report_on_late_file :
    ∃ files e k f, (∀ f ∈ files,
        SourceFile.ofText f.source.name f.source.path f.source.text = .ok f.source) ∧
      Visibility.ImportsFirst files ∧ ClashFree files ∧ link files = .error e ∧
      IsLeast {j | flawsOf files j ≠ []} k ∧ files[k]? = some f ∧ e.file ≠ f.source.name := by
  obtain ⟨_, _, hfree, _, _, hearly, _⟩ := Draft.facts
  obtain ⟨e, he, hfile⟩ := Draft.exists_link_error
  refine ⟨Draft.files, e, 0, _, Draft.files_parsed, Draft.files_importsFirst, hfree, he,
    ⟨hearly, fun j _ => Nat.zero_le j⟩, rfl, ?_⟩
  rw [hfile]
  show "list.proto" ≠ "note.proto"
  decide

end Linking

end Protobuf

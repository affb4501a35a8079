import Protobuf.Proofs.Schema.Declared
import Protobuf.Proofs.Schema.Unnumbered

/-! When files can be linked.

Names are entered one after the other, and the flaws of definitions are found while the definitions
are linked. But whether there are any does not depend on the order: names do not clash if no two of
them do (`clashFree_iff`), and files are linked if their names do not clash and no definition has a
flaw (`exists_link_iff`). -/
namespace Protobuf

/-! ### Names that do not clash -/

namespace Registry
variable {fileName : Nat → String} {r : Registry} {names : List NameEntry} {first entry : NameEntry}

/-- Two names may both be entered: they differ, or both are packages. -/
def Compatible (a b : NameEntry) : Prop :=
  a.name = b.name → a.definition = .package ∧ b.definition = .package

theorem clash_eq_none_iff :
    clash fileName first entry = none ↔
      first.definition = .package ∧ entry.definition = .package := by
  unfold clash
  split
  · exact iff_of_true rfl ‹_›
  · refine iff_of_false ?_ ‹_›
    split <;> nofun

theorem get?_concat (hnew : r.get? entry.name = none) (name : QualifiedName) :
    get? (r ++ [entry]) name = if entry.name = name then some entry else r.get? name := by
  rw [get?, List.find?_append]
  split
  · rename_i hname
    subst hname
    rw [get?] at hnew
    simp [hnew]
  · rename_i hname
    have hother : (entry.name == name) = false := beq_false_of_ne hname
    simp [get?, hother]

/-- Names are entered without a clash if they are compatible with each other, and with what has
their name already. -/
theorem enter_eq_nil_iff :
    (enter fileName r names).2 = [] ↔
      (∀ entry ∈ names, ∀ first, r.get? entry.name = some first → Compatible first entry) ∧
        names.Pairwise Compatible := by
  induction names generalizing r with
  | nil => simp [enter]
  | cons next rest ih =>
    rw [List.pairwise_cons, List.forall_mem_cons]
    cases hget : r.get? next.name with
    | none =>
      simp only [enter, hget, ih, get?_concat hget]
      constructor
      · rintro ⟨hold, hrest⟩
        refine ⟨⟨?_, fun entry hentry first hfirst => ?_⟩, fun entry hentry hname => ?_, hrest⟩
        · intro first hfirst
          cases hfirst
        · refine hold entry hentry first ?_
          rw [if_neg fun hname => by rw [← hname, hget] at hfirst; cases hfirst]
          exact hfirst
        · exact hold entry hentry next (if_pos hname) hname
      · rintro ⟨⟨_, hold⟩, hnext, hrest⟩
        refine ⟨fun entry hentry first hfirst => ?_, hrest⟩
        split at hfirst
        · cases hfirst
          exact hnext entry hentry
        · exact hold entry hentry first hfirst
    | some found =>
      have hname := name_of_get? hget
      have hflaws : (enter fileName r (next :: rest)).2 = [] ↔
          clash fileName found next = none ∧ (enter fileName r rest).2 = [] := by
        simp only [enter, hget]
        cases clash fileName found next <;> simp
      rw [hflaws, clash_eq_none_iff, ih]
      constructor
      · rintro ⟨hboth, hold, hrest⟩
        refine ⟨⟨fun first hfirst _ => Option.some.inj hfirst ▸ hboth, hold⟩,
          fun entry hentry hsame => ?_, hrest⟩
        -- what has the name of `next` has that of `found`, too
        have hfound := hold entry hentry found (hsame ▸ hget) (hname.trans hsame)
        exact ⟨hboth.2, hfound.2⟩
      · rintro ⟨⟨hfirst, hold⟩, _, hrest⟩
        exact ⟨hfirst found rfl hname, hold, hrest⟩

theorem exists_of_mem_clashes {x : Nat × Flaw} (h : x ∈ (enter fileName r names).2) :
    ∃ entry ∈ names, entry.file = x.1 := by
  induction names generalizing r with
  | nil => cases h
  | cons next rest ih =>
    rw [enter] at h
    split at h
    · obtain ⟨entry, hentry, hfile⟩ := ih h
      exact ⟨entry, .tail next hentry, hfile⟩
    · dsimp only at h
      split at h
      · rcases List.mem_cons.mp h with rfl | h
        · exact ⟨next, List.mem_cons_self, rfl⟩
        · obtain ⟨entry, hentry, hfile⟩ := ih h
          exact ⟨entry, .tail next hentry, hfile⟩
      · obtain ⟨entry, hentry, hfile⟩ := ih h
        exact ⟨entry, .tail next hentry, hfile⟩

end Registry

/-! ### Every name belongs to a file -/

namespace Outline
variable {files : List LoadedFile}

theorem file_of_mem_keys {key : NameKey} (h : key ∈ (keysOf files).names) :
    ∃ f ∈ files, key.file = some f := by
  rw [keysOf_eq] at h
  obtain ⟨f, hf, hkey⟩ := List.mem_flatMap.mp h
  obtain ⟨entry, _, rfl⟩ := List.mem_map.mp hkey
  exact ⟨f, hf, rfl⟩

theorem getElem?_file_of_name {entry : NameEntry} (h : entry ∈ (ofFiles files).1.names) :
    ∃ f, files[entry.file]? = some f := by
  obtain ⟨f, _, hf⟩ := file_of_mem_keys (List.mem_map_of_mem (f := nameKey (files[·]?)) h)
  exact ⟨f, hf⟩

end Outline

namespace Linking
variable {files : List LoadedFile} {s : Schema}

theorem clashFree_iff :
    ClashFree files ↔ (Outline.ofFiles files).1.names.Pairwise Registry.Compatible := by
  rw [ClashFree, Registry.enter_eq_nil_iff]
  exact and_iff_right fun _ _ _ hfirst => nomatch hfirst

/-- Whether names clash can be seen without their numbers. -/
theorem clashFree_iff_keys :
    ClashFree files ↔ (Outline.keysOf files).names.Pairwise fun a b =>
      a.name = b.name → a.definition = .package ∧ b.definition = .package := by
  have hpackage : ∀ d : Definition, d.unnumbered = .package ↔ d = .package := by
    intro d
    cases d <;> simp [Definition.unnumbered]
  rw [clashFree_iff, Outline.keysOf, Outline.keys, List.pairwise_map]
  simp only [Outline.nameKey, hpackage]
  rfl

theorem clashFree_of_perm {files' : List LoadedFile} (h : files.Perm files')
    (hfree : ClashFree files) : ClashFree files' := by
  rw [clashFree_iff_keys] at hfree ⊢
  refine (Outline.keysOf_perm h).names.pairwise hfree fun {a b} hab hname => ?_
  exact (hab hname.symm).symm

/-! ### What is linked -/

theorem clashFree_of_report? (h : report? files
    (Registry.enter (fileName files) [] (Outline.ofFiles files).1.names).2 = none) :
    ClashFree files := by
  refine findings_eq_nil (fun x hx => ?_) h
  obtain ⟨entry, hentry, hfile⟩ := Registry.exists_of_mem_clashes hx
  obtain ⟨f, hf⟩ := Outline.getElem?_file_of_name hentry
  exact hfile ▸ (List.getElem?_eq_some_iff.mp hf).1

theorem clashFree_of_link (h : link files = .ok s) : ClashFree files := by
  refine clashFree_of_report? ?_
  simp only [link] at h
  split at h
  · cases h
  · assumption

theorem findings_of_forall {α : Type} {checked : List (Nat × Checked α)}
    (h : ∀ c ∈ checked, c.2.flaws = []) : findings checked = [] :=
  List.flatMap_eq_nil_iff.mpr fun c hc => List.map_eq_nil_iff.mpr (h c hc)

/-- Files are linked if their names do not clash and none of their definitions has a flaw. -/
theorem exists_link_iff :
    (∃ s, link files = .ok s) ↔ ClashFree files ∧
      (∀ x ∈ (Outline.ofFiles files).1.enums, EnumRules.flaws (edition files x.file) x.decl = []) ∧
      ∀ m ∈ (Outline.ofFiles files).1.messages,
        (message (contextOf files m.file) m).flaws = [] := by
  constructor
  · rintro ⟨s, h⟩
    refine ⟨clashFree_of_link h, fun x hx => ?_, fun m hm => ?_⟩
    · obtain ⟨i, hi⟩ := List.mem_iff_getElem?.mp hx
      exact enum_flaws_of_link h hi
    · obtain ⟨i, hi⟩ := List.mem_iff_getElem?.mp hm
      exact message_flaws_of_link h hi
  · rintro ⟨hfree, henums, hmessages⟩
    have hfound : findings (enumsOf files) ++ findings (messagesOf files) = [] :=
      List.append_eq_nil_iff.mpr ⟨findings_of_forall (List.forall_mem_map.mpr henums),
        findings_of_forall (List.forall_mem_map.mpr hmessages)⟩
    cases hlink : link files with
    | ok s => exact ⟨s, rfl⟩
    | error e =>
      have hreport := report?_of_link_error hfree hlink
      rw [hfound] at hreport
      cases hreport

end Linking

end Protobuf

import Protobuf.Proofs.Schema.Duplicates
import Protobuf.Proofs.Schema.Kept

/-! Which numbers a `reserved` statement keeps out of use.

A range denotes an interval of integers, from its first number to its last one or to the largest
there is (`Decl.ReservedRange.Contains`). Linking compares numbers with 64 bit intervals, and passes
over a range that has an end beyond that (`ReservedSet.hasNumber_iff`). So the numbers of a linked
schema lie in no reserved range but in such (`reserved_exact`); and in such they can lie, since a
literal has 64 bits and a sign besides (`exists_reserved_number`). -/
namespace Protobuf

/-! ### Intervals -/

namespace Decl

/-- The last number of a range. One that goes on to the largest number has none. -/
def ReservedRange.last? (r : ReservedRange) : Option Int :=
  match r.stop with
  | .single => some r.first.toInt
  | .upTo last => some last.toInt
  | .max => none

/-- A number lies in the interval that a range denotes. -/
def ReservedRange.Contains (r : ReservedRange) (n : Int) : Prop :=
  r.first.toInt ≤ n ∧ ∀ last ∈ r.last?, n ≤ last

instance (r : ReservedRange) (n : Int) : Decidable (r.Contains n) :=
  inferInstanceAs (Decidable (_ ∧ _))

/-- A range begins below the numbers of 64 bits with a sign, or ends above them. -/
def ReservedRange.Oversized (r : ReservedRange) : Prop :=
  r.first.toInt < -0x8000000000000000 ∨ ∃ last ∈ r.last?, 0x8000000000000000 ≤ last

/-- The ranges of a statement. -/
def Reserved.ranges (statement : Reserved) : List ReservedRange :=
  match statement.items with
  | .ranges list => list
  | .names _ => []

end Decl

namespace ReservedSet
variable {max n : Int} {span : Span} {r : Decl.ReservedRange}

theorem statementIntervals_eq (max : Int) (statement : Decl.Reserved) :
    statementIntervals max statement =
      statement.ranges.filterMap (interval? max statement.span) := by
  unfold statementIntervals Decl.Reserved.ranges
  cases statement.items <;> rfl

theorem toInt64?_cases (n : Decl.IntLit) :
    (n.toInt64? = some n.toInt ∧ -0x8000000000000000 ≤ n.toInt ∧ n.toInt < 0x8000000000000000) ∨
      (n.toInt64? = none ∧ (n.toInt < -0x8000000000000000 ∨ 0x8000000000000000 ≤ n.toInt)) := by
  unfold Decl.IntLit.toInt64?
  split <;> simp <;> omega

/-- A number of 64 bits is in the interval that is kept for a range if and only if it is in the
range and the range is not too large. -/
theorem exists_interval?_iff (hle : -0x8000000000000000 ≤ n) (hlt : n < 0x8000000000000000)
    (hmax : n ≤ max) :
    (∃ i, interval? max span r = some i ∧ i.first ≤ n ∧ n ≤ i.last) ↔
      r.Contains n ∧ ¬ r.Oversized := by
  unfold interval? Decl.ReservedRange.Contains Decl.ReservedRange.Oversized
    Decl.ReservedRange.last?
  rcases toInt64?_cases r.first with ⟨hfirst, hrange⟩ | ⟨hfirst, hrange⟩
  · cases r.stop with
    | single =>
      simp [hfirst]
      omega
    | upTo last =>
      rcases toInt64?_cases last with ⟨hlast, hlastRange⟩ | ⟨hlast, hlastRange⟩
      all_goals
        simp [hfirst, hlast]
        omega
    | max =>
      simp [hfirst]
      omega
  · cases r.stop <;> simp [hfirst] <;> omega

/-- A number is kept out of use if and only if it is in a range that is not too large. -/
theorem hasNumber_iff {statements : List Decl.Reserved} (hle : -0x8000000000000000 ≤ n)
    (hlt : n < 0x8000000000000000) (hmax : n ≤ max) :
    (ofStatements max statements).HasNumber n ↔
      ∃ r ∈ statements.flatMap (·.ranges), r.Contains n ∧ ¬ r.Oversized := by
  unfold HasNumber ofStatements
  simp only [List.mem_flatMap, statementIntervals_eq, List.mem_filterMap]
  constructor
  · intro h
    obtain ⟨i, ⟨statement, hstatement, r, hr, hi⟩, hcontains⟩ := h
    exact ⟨r, ⟨statement, hstatement, hr⟩,
      (exists_interval?_iff hle hlt hmax).mp ⟨i, hi, hcontains⟩⟩
  · intro h
    obtain ⟨r, ⟨statement, hstatement, hr⟩, hcontains⟩ := h
    obtain ⟨i, hi, hcontains⟩ : ∃ i, interval? max statement.span r = some i ∧ i.first ≤ n ∧
        n ≤ i.last := (exists_interval?_iff hle hlt hmax).mpr hcontains
    exact ⟨i, ⟨statement, hstatement, r, hr, hi⟩, hcontains⟩

/-- What is in use lies in no range but one that is too large. -/
theorem oversized_of_unreserved {statements : List Decl.Reserved} (hle : -0x8000000000000000 ≤ n)
    (hlt : n < 0x8000000000000000) (hmax : n ≤ max)
    (hfree : ¬ (ofStatements max statements).HasNumber n) :
    ∀ r ∈ statements.flatMap (·.ranges), r.Contains n → r.Oversized := by
  intro r hr hcontains
  by_contra hfits
  exact hfree ((hasNumber_iff hle hlt hmax).mpr ⟨r, hr, hcontains, hfits⟩)

end ReservedSet

/-! ### Linked schemas -/

/-- The numbers of the fields of a message. -/
def Message.numbers (m : Message) : List Int :=
  m.fields.map fun f => (f.number : Int)

/-- The numbers of the values of an enum. -/
def Enum.numbers (e : Enum) : List Int :=
  e.values.map (·.number.toInt)

theorem Message.Keeps.numbers {m : Message} {d : Decl.Message} (h : m.Keeps d) :
    m.numbers = d.fields.map (·.number.toInt) := by
  simpa [Message.numbers, Function.comp_def] using congrArg (List.map Prod.snd) h.fields

theorem Enum.Keeps.numbers {e : Enum} {d : Decl.Enum} (h : e.Keeps d) :
    e.numbers = d.values.map (·.number.toInt) := by
  simpa [Enum.numbers, Function.comp_def] using congrArg (List.map Prod.snd) h.values

namespace Linking
variable {files : List LoadedFile} {s : Schema}

theorem fields_oversized {d : Decl.Message} {m : Message} (hsound : FieldRules.Sound d)
    (hkeeps : m.Keeps d) :
    ∀ n ∈ m.numbers, ∀ r ∈ d.reserved.flatMap (·.ranges), r.Contains n → r.Oversized := by
  intro n hn
  rw [hkeeps.numbers] at hn
  obtain ⟨f, hf, rfl⟩ := List.mem_map.mp hn
  obtain ⟨hpos, hle, _⟩ := hsound.usable f hf
  apply ReservedSet.oversized_of_unreserved _ _ hle (hsound.unreservedNumber f hf)
  all_goals omega

theorem values_oversized {edition : Decl.Edition} {d : Decl.Enum} {e : Enum}
    (hsound : EnumRules.Sound edition d) (hkeeps : e.Keeps d) :
    ∀ n ∈ e.numbers, ∀ r ∈ d.reserved.flatMap (·.ranges), r.Contains n → r.Oversized := by
  intro n hn
  rw [hkeeps.numbers] at hn
  obtain ⟨v, hv, rfl⟩ := List.mem_map.mp hn
  obtain ⟨hle, hlt⟩ := hsound.inRange v hv
  have hmax : v.number.toInt ≤ EnumRules.maxNumber := Int.le_of_lt_add_one hlt
  apply ReservedSet.oversized_of_unreserved _ _ hmax (hsound.unreservedNumber v hv)
  all_goals omega

/-- **Reserved numbers are not used**, unless they are reserved by a range with an end beyond
64 bits: in a linked schema every number of a field or enum value that lies in a range which its
message or enum reserves lies in such a range. -/
theorem reserved_exact (h : link files = .ok s) :
    List.Forall₂ (fun d m => ∀ n ∈ m.numbers, ∀ r ∈ d.reserved.flatMap (·.ranges),
        r.Contains n → r.Oversized)
      (files.flatMap (·.source.decl.allMessages)) s.messages ∧
    List.Forall₂ (fun d e => ∀ n ∈ e.numbers, ∀ r ∈ d.reserved.flatMap (·.ranges),
        r.Contains n → r.Oversized)
      (files.flatMap (·.source.decl.allEnums)) s.enums := by
  constructor
  · exact (messages_kept h).imp fun d m hkept => fields_oversized hkept.1 hkept.2
  · have henums : files.flatMap (·.source.decl.allEnums) = (files.flatMap fun f =>
        f.source.decl.allEnums.map (f.source.decl.edition, ·)).map Prod.snd := by
      simp [List.map_flatMap, Function.comp_def]
    rw [henums, List.forall₂_map_left_iff]
    exact (enums_kept h).imp fun d e hkept => values_oversized hkept.1 hkept.2

end Linking

/-! ### A lot -/

namespace Lot

/-- A range up to the largest number of 64 bits is kept, and one that goes beyond is not. -/
def text : String :=
  "message Lot \x7b reserved 5 to 9, 11 to 9223372036854775808; optional int32 size=12; \x7d " ++
  "enum Grade \x7b reserved -9223372036854775809 to -1, 4 to max; LOW=-3; HIGH=3; \x7d"

def files : List LoadedFile :=
  [⟨⟨"lot.proto", none, text, (Grammar.read text).1.getD (.empty .proto2)⟩, true⟩]

def schema : Schema :=
  { files := [⟨"lot.proto", none, .proto2, [0], [0], true⟩]
    messages :=
      [⟨"Lot", ["Lot"], 0, none, [⟨"size", 12, .optional, .scalar .int32, false, none, false⟩],
        [], []⟩]
    enums := [⟨"Grade", ["Grade"], 0, none, [⟨"LOW", -3⟩, ⟨"HIGH", 3⟩]⟩] }

/-- The text has no faults and is linked. Both are decided at once, so that it is read once. -/
theorem read_link_text :
    (Grammar.read text).2 = [] ∧ (Linking.link files).toOption = some schema := by
  decide +kernel

theorem files_parsed : ∀ f ∈ files,
    SourceFile.ofText f.source.name f.source.path f.source.text = .ok f.source :=
  SourceFile.forall_mem_ofText read_link_text.1

theorem link_files : Linking.link files = .ok schema :=
  Linking.link_of_toOption read_link_text.2

end Lot

namespace Linking

/-- The size of a lot and the low grade have numbers that are reserved by ranges beyond 64 bits, and
no others. -/
theorem reserved_exact_lot :
    link Lot.files = .ok Lot.schema ∧
      List.Forall₂ (fun d m => ∀ n ∈ m.numbers, ∀ r ∈ d.reserved.flatMap (·.ranges),
          r.Contains n → r.Oversized)
        (Lot.files.flatMap (·.source.decl.allMessages)) Lot.schema.messages ∧
      List.Forall₂ (fun d e => ∀ n ∈ e.numbers, ∀ r ∈ d.reserved.flatMap (·.ranges),
          r.Contains n → r.Oversized)
        (Lot.files.flatMap (·.source.decl.allEnums)) Lot.schema.enums :=
  ⟨Lot.link_files, reserved_exact Lot.link_files⟩

/-- Reserved numbers can be used: files that are parsed and linked have a field and an enum value
with a number in a range that is reserved. -/
theorem exists_reserved_number :
    ∃ files s, (∀ f ∈ files,
        SourceFile.ofText f.source.name f.source.path f.source.text = .ok f.source) ∧
      link files = .ok s ∧
      ¬ List.Forall₂ (fun d m => ∀ n ∈ m.numbers, ∀ r ∈ d.reserved.flatMap (·.ranges),
          ¬ r.Contains n)
        (files.flatMap (·.source.decl.allMessages)) s.messages ∧
      ¬ List.Forall₂ (fun d e => ∀ n ∈ e.numbers, ∀ r ∈ d.reserved.flatMap (·.ranges),
          ¬ r.Contains n)
        (files.flatMap (·.source.decl.allEnums)) s.enums := by
  refine ⟨Lot.files, Lot.schema, Lot.files_parsed, Lot.link_files, ?_⟩
  decide +kernel

end Linking

end Protobuf

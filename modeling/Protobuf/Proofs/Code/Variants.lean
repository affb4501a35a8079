import Protobuf.Proofs.Code.Collisions

/-! Variants and aliases, seen from the values.

The walk that separates variants from aliases keeps the numbers that it has seen. Without it, a
variant is a value that a search for its number comes to first (`variants_eq`), so that a number
leads to the first value that has it, whether the search is in the variants or in all values
(`ofNumber?_eq`), and the name of every value leads to the variant with its number
(`ofName?_name`). -/
namespace Protobuf.Enum
variable {e : Enum} {v : EnumValue}

/-- Whether a value is the first with its number. -/
def isFirst (e : Enum) (v : EnumValue) : Bool :=
  e.values.find? (·.number == v.number) == some v

theorem firstsAfter_eq {seen : List Int32} {values : List EnumValue} (h : values.Nodup) :
    firstsAfter seen values = values.filter fun v =>
      decide (v.number ∉ seen) && values.find? (·.number == v.number) == some v := by
  induction values generalizing seen with
  | nil => rfl
  | cons first rest ih =>
    obtain ⟨hfirst, hrest⟩ := List.nodup_cons.mp h
    rw [firstsAfter]
    split
    · rename_i hseen
      -- A value with the number of the first one is out on both sides, as that number is seen.
      rw [ih hrest, List.filter_cons_of_neg (by simp [hseen])]
      refine List.filter_congr fun v hv => ?_
      by_cases hsame : first.number = v.number
      · simp [← hsame, hseen]
      · simp [hsame]
    · rename_i hseen
      rw [ih hrest, List.filter_cons_of_pos (by simp [hseen])]
      refine congrArg (first :: ·) (List.filter_congr fun v hv => ?_)
      have hne : first ≠ v := fun heq => hfirst (heq ▸ hv)
      by_cases hsame : first.number = v.number
      · simp [hsame, hne]
      · simp [hsame, Ne.symm hsame]

/-- The variants are the values that are the first with their numbers, in order. -/
theorem variants_eq (h : e.values.Nodup) : e.variants = e.values.filter e.isFirst := by
  rw [variants, firstsAfter_eq h]
  refine List.filter_congr fun v _ => ?_
  simp [isFirst]

theorem find?_firstsAfter {number : Int32} {seen : List Int32} (h : number ∉ seen)
    (values : List EnumValue) :
    (firstsAfter seen values).find? (·.number == number) =
      values.find? (·.number == number) := by
  induction values generalizing seen with
  | nil => rfl
  | cons first rest ih =>
    rw [firstsAfter]
    split
    · rename_i hseen
      have hne : first.number ≠ number := fun heq => h (heq ▸ hseen)
      rw [ih h, List.find?_cons_of_neg (by simpa using hne)]
    · by_cases heq : first.number = number
      · have hfound : (first.number == number) = true := beq_iff_eq.mpr heq
        simp only [List.find?_cons, hfound]
      · have hnot : number ∉ first.number :: seen := by simp [h, Ne.symm heq]
        have hmissed : (first.number == number) = false := beq_eq_false_iff_ne.mpr heq
        simp only [List.find?_cons, hmissed, ih hnot]

/-- A number leads to the first value that has it. -/
theorem ofNumber?_eq (e : Enum) (number : Int32) :
    e.ofNumber? number = e.values.find? (·.number == number) :=
  find?_firstsAfter List.not_mem_nil e.values

theorem ofNumber?_isSome_iff {number : Int32} :
    (e.ofNumber? number).isSome = true ↔ ∃ v ∈ e.values, v.number = number := by
  simp [ofNumber?_eq]

theorem ofNumber?_eq_some {number : Int32} (h : e.ofNumber? number = some v) :
    v ∈ e.variants ∧ v.number = number :=
  ⟨List.mem_of_find?_eq_some h, by simpa using List.find?_some h⟩

/-- The number of a value leads to a variant. -/
theorem exists_ofNumber? (hv : v ∈ e.values) :
    ∃ w, e.ofNumber? v.number = some w ∧ w ∈ e.variants ∧ w.number = v.number := by
  obtain ⟨w, hw⟩ := Option.isSome_iff_exists.mp (ofNumber?_isSome_iff.mpr ⟨v, hv, rfl⟩)
  exact ⟨w, hw, ofNumber?_eq_some hw⟩

theorem mem_values_of_mem_variants (h : v ∈ e.variants) : v ∈ e.values :=
  e.variants_append_aliases.mem_iff.mp (List.mem_append_left _ h)

/-- The number of a variant leads back to it. -/
theorem ofNumber?_number (h : e.values.Nodup) (hv : v ∈ e.variants) :
    e.ofNumber? v.number = some v := by
  rw [variants_eq h] at hv
  rw [ofNumber?_eq]
  simpa [isFirst] using (List.mem_filter.mp hv).2

/-- The aliases are the values that are not the first with their numbers. -/
theorem mem_aliases_iff (h : e.values.Nodup) :
    v ∈ e.aliases ↔ v ∈ e.values ∧ e.isFirst v = false := by
  have hperm := e.variants_append_aliases
  have hapart := (List.nodup_append.mp (hperm.nodup_iff.mpr h)).2.2
  have hvariant : v ∈ e.variants ↔ v ∈ e.values ∧ e.isFirst v = true := by
    rw [variants_eq h, List.mem_filter]
  constructor
  · intro halias
    have hv := hperm.mem_iff.mp (List.mem_append_right _ halias)
    refine ⟨hv, Bool.eq_false_iff.mpr fun hfirst => ?_⟩
    exact hapart v (hvariant.mpr ⟨hv, hfirst⟩) v halias rfl
  · rintro ⟨hv, hfirst⟩
    refine (List.mem_append.mp (hperm.mem_iff.mpr hv)).resolve_left fun hmem => ?_
    exact Bool.eq_false_iff.mp hfirst (hvariant.mp hmem).2

/-- **Variants have different numbers.** -/
theorem numbers_nodup (h : e.values.Nodup) : (e.variants.map (·.number)).Nodup := by
  have hvariants : e.variants.Nodup := by
    rw [variants_eq h]
    exact h.filter _
  refine hvariants.map_on fun v hv w hw hnumber => ?_
  have hfound := ofNumber?_number h hv
  rw [hnumber, ofNumber?_number h hw] at hfound
  exact (Option.some.inj hfound).symm

/-- **The name of a value leads to the variant with its number**, be the value an alias or not. -/
theorem ofName?_name (h : (e.values.map (·.name)).Nodup) (hv : v ∈ e.values) :
    e.ofName? v.name = e.ofNumber? v.number := by
  have hperm := e.variants_append_aliases
  have hfind : (e.variants ++ e.aliases).find? (·.name == v.name) = some v :=
    Linking.find?_of_nodup ((hperm.map _).nodup_iff.mpr h) (hperm.mem_iff.mpr hv)
  rw [ofName?, hfind]

end Protobuf.Enum

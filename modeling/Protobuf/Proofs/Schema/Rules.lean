import Mathlib.Data.List.Nodup
import Protobuf.Schema.EnumRules
import Protobuf.Schema.FieldRules

/-! What the rules for fields and enums come to.

Fields are checked one after the other, each against those in front of it, and so are the values of
an enum. A check that fails neither stops the others nor takes the field or value out of the way of
those that follow. `FieldRules.Sound` and `EnumRules.Sound` say what a declaration without flaws is
like, and know of no order: no flaw is found if and only if they hold
(`FieldRules.flaws_eq_nil_iff`, `EnumRules.flaws_eq_nil_iff`). -/
namespace Protobuf

/-- Checks of elements against those in front of them find nothing if and only if each element is
fit, and fits with every other one and with what was there before. -/
theorem checks_eq_nil_iff {α : Type} (all : List α → List α → List Flaw)
    (check : List α → α → List Flaw) {Fit : α → Prop} {Apart : α → α → Prop}
    (hnil : ∀ before, all before [] = [])
    (hcons : ∀ before a rest, all before (a :: rest) = check before a ++ all (before ++ [a]) rest)
    (hcheck : ∀ before a, check before a = [] ↔ Fit a ∧ ∀ b ∈ before, Apart b a)
    {before l : List α} :
    all before l = [] ↔
      (∀ a ∈ l, Fit a) ∧ l.Pairwise Apart ∧ ∀ b ∈ before, ∀ a ∈ l, Apart b a := by
  induction l generalizing before with
  | nil => simp [hnil]
  | cons a rest ih =>
    rw [hcons, List.append_eq_nil_iff, hcheck, ih]
    simp only [List.forall_mem_cons, List.pairwise_cons, List.forall_mem_append]
    grind

/-! ### Literals and reserved sets -/

namespace Decl.IntLit
variable {n : IntLit}

theorem toInt32?_eq_some_iff {k : Int32} : n.toInt32? = some k ↔ k.toInt = n.toInt := by
  unfold toInt32?
  split
  · have htoInt : (Int32.ofInt n.toInt).toInt = n.toInt :=
      Int32.toInt_ofInt_of_le (by omega) (by omega)
    rw [Option.some.injEq, ← Int32.toInt_inj, htoInt]
    exact eq_comm
  · have hle := k.le_toInt
    have hlt := k.toInt_lt
    constructor
    · intro h
      cases h
    · intro h
      omega

theorem toInt32?_eq_none_iff :
    n.toInt32? = none ↔ ¬ (-0x80000000 ≤ n.toInt ∧ n.toInt < 0x80000000) := by
  unfold toInt32?
  split <;> simp_all

end Decl.IntLit

namespace ReservedSet
variable {r : ReservedSet}

/-- A number lies in one of the intervals. -/
def HasNumber (r : ReservedSet) (n : Int) : Prop :=
  ∃ i ∈ r.intervals, i.first ≤ n ∧ n ≤ i.last

/-- A name is one of those listed. -/
def HasName (r : ReservedSet) (name : String) : Prop :=
  ∃ ident ∈ r.names, ident.value = name

theorem number?_eq_none_iff {n : Int} : r.number? n = none ↔ ¬ r.HasNumber n := by
  simp [number?, HasNumber]

theorem name?_eq_none_iff {name : String} : r.name? name = none ↔ ¬ r.HasName name := by
  simp [name?, HasName]

end ReservedSet

/-! ### Fields -/

namespace FieldRules
variable {message : String} {reserved : ReservedSet} {before fields : List Decl.Field}
  {f : Decl.Field}

/-- The numbers that fields may have. -/
def Usable (n : Int) : Prop :=
  1 ≤ n ∧ n ≤ 536870911 ∧ ¬ (19000 ≤ n ∧ n ≤ 19999)

instance (n : Int) : Decidable (Usable n) :=
  inferInstanceAs (Decidable (_ ∧ _))

/-- What the names and numbers of fields without flaws are like. -/
structure Sound (m : Decl.Message) : Prop where
  names : (m.fields.map (·.name.value)).Nodup
  idents : (m.fields.map (Ident.field ·.name.value)).Nodup
  usable : ∀ f ∈ m.fields, Usable f.number.toInt
  numbers : (m.fields.map (·.number.toInt)).Nodup
  unreservedName : ∀ f ∈ m.fields,
    ¬ (ReservedSet.ofStatements maxNumber m.reserved).HasName f.name.value
  unreservedNumber : ∀ f ∈ m.fields,
    ¬ (ReservedSet.ofStatements maxNumber m.reserved).HasNumber f.number.toInt

/-- A field is as it should be by itself. -/
def Fit (reserved : ReservedSet) (f : Decl.Field) : Prop :=
  Usable f.number.toInt ∧ ¬ reserved.HasName f.name.value ∧ ¬ reserved.HasNumber f.number.toInt

/-- Two fields differ in code and in number. -/
def Apart (f g : Decl.Field) : Prop :=
  Ident.field f.name.value ≠ Ident.field g.name.value ∧ f.number.toInt ≠ g.number.toInt

theorem number?_eq_some_iff {n : Decl.IntLit} {k : Nat} :
    number? n = some k ↔ Usable n.toInt ∧ (k : Int) = n.toInt := by
  have hmax : maxNumber = 536870911 := rfl
  unfold number? Usable Decl.IntLit.toInt
  rw [hmax]
  cases n.negative <;> simp <;> omega

theorem number?_eq_none_iff {n : Decl.IntLit} : number? n = none ↔ ¬ Usable n.toInt := by
  constructor
  · intro hnone husable
    have hcast := Int.toNat_of_nonneg (Int.le_trans (by decide) husable.1)
    have hsome := number?_eq_some_iff.mpr ⟨husable, hcast⟩
    rw [hnone] at hsome
    cases hsome
  · intro hnot
    cases hnumber : number? n with
    | none => rfl
    | some k => exact absurd (number?_eq_some_iff.mp hnumber).1 hnot

theorem Sound.exists_number {m : Decl.Message} (h : Sound m) (hf : f ∈ m.fields) :
    ∃ number, number? f.number = some number :=
  Option.ne_none_iff_exists'.mp fun hnone => number?_eq_none_iff.mp hnone (h.usable f hf)

theorem nameFlaws_eq_nil_iff :
    nameFlaws message before f = [] ↔
      ∀ g ∈ before, Ident.field g.name.value ≠ Ident.field f.name.value := by
  unfold nameFlaws
  dsimp only
  split
  · rename_i hfind
    simpa using hfind
  · rename_i first hfind
    have hmem := List.mem_of_find?_eq_some hfind
    have hsame : Ident.field first.name.value = Ident.field f.name.value := by
      simpa using List.find?_some hfind
    constructor
    · intro h
      split at h <;> cases h
    · intro h
      exact absurd hsame (h first hmem)

theorem reservedNameFlaws_eq_nil_iff :
    reservedNameFlaws message reserved f = [] ↔ ¬ reserved.HasName f.name.value := by
  rw [← ReservedSet.name?_eq_none_iff]
  unfold reservedNameFlaws
  cases reserved.name? f.name.value <;> simp

theorem numberFlaws_eq_nil_iff :
    numberFlaws message reserved before f = [] ↔
      Usable f.number.toInt ∧ ¬ reserved.HasNumber f.number.toInt ∧
        ∀ g ∈ before, g.number.toInt ≠ f.number.toInt := by
  cases hnumber : number? f.number with
  | none => simp [numberFlaws, hnumber, number?_eq_none_iff.mp hnumber]
  | some number =>
    obtain ⟨husable, hcast⟩ := number?_eq_some_iff.mp hnumber
    -- A field in front that has the number is usable, too.
    have hfirst : before.find? (number? ·.number == some number) = none ↔
        ∀ g ∈ before, g.number.toInt ≠ f.number.toInt := by
      simp only [List.find?_eq_none, beq_iff_eq, number?_eq_some_iff, hcast]
      grind
    unfold numberFlaws
    simp only [hnumber, hcast, husable, true_and, ← hfirst, ← ReservedSet.number?_eq_none_iff]
    cases before.find? (number? ·.number == some number) <;>
      cases reserved.number? f.number.toInt <;> simp

/-- One field, given those in front of it. -/
theorem fieldFlaws_eq_nil_iff :
    nameFlaws message before f ++ reservedNameFlaws message reserved f ++
        numberFlaws message reserved before f = [] ↔
      Fit reserved f ∧ ∀ g ∈ before, Apart g f := by
  rw [List.append_eq_nil_iff, List.append_eq_nil_iff, nameFlaws_eq_nil_iff,
    reservedNameFlaws_eq_nil_iff, numberFlaws_eq_nil_iff]
  unfold Fit Apart
  grind

/-- All fields, given those in front of them. -/
theorem fieldsFlaws_eq_nil_iff :
    fieldsFlaws message reserved before fields = [] ↔
      (∀ f ∈ fields, Fit reserved f) ∧ fields.Pairwise Apart ∧
        ∀ g ∈ before, ∀ f ∈ fields, Apart g f := by
  apply checks_eq_nil_iff (fieldsFlaws message reserved) (fun before f =>
    nameFlaws message before f ++ reservedNameFlaws message reserved f ++
      numberFlaws message reserved before f)
  · intro before
    rfl
  · intro before f rest
    rfl
  · intro before f
    exact fieldFlaws_eq_nil_iff

/-- **The fields of a message have no flaws if and only if they are sound.** -/
theorem flaws_eq_nil_iff {m : Decl.Message} : flaws message m = [] ↔ Sound m := by
  rw [flaws, fieldsFlaws_eq_nil_iff]
  unfold Fit Apart
  constructor
  · intro h
    obtain ⟨hfit, hapart, _⟩ := h
    have hidents : (m.fields.map (Ident.field ·.name.value)).Nodup :=
      List.pairwise_map.mpr (hapart.imp fun h => h.1)
    have hnames : (m.fields.map (·.name.value)).Nodup := by
      apply List.Nodup.of_map Ident.field
      rwa [List.map_map]
    exact ⟨hnames, hidents, fun f hf => (hfit f hf).1,
      List.pairwise_map.mpr (hapart.imp fun h => h.2), fun f hf => (hfit f hf).2.1,
      fun f hf => (hfit f hf).2.2⟩
  · intro h
    have hapart := (List.pairwise_map.mp h.idents).and (List.pairwise_map.mp h.numbers)
    refine ⟨fun f hf => ?_, hapart, fun g hg => ?_⟩
    · exact ⟨h.usable f hf, h.unreservedName f hf, h.unreservedNumber f hf⟩
    · cases hg

end FieldRules

/-! ### Enums -/

namespace EnumRules
variable {e : Decl.Enum} {reserved : ReservedSet} {before values : List Decl.EnumValue}
  {v : Decl.EnumValue} {edition : Decl.Edition}

/-- What an enum without flaws is like. -/
structure Sound (edition : Decl.Edition) (e : Decl.Enum) : Prop where
  nonempty : e.values ≠ []
  inRange : ∀ v ∈ e.values, -0x80000000 ≤ v.number.toInt ∧ v.number.toInt < 0x80000000
  idents : (e.values.map (Ident.variant ·.name.value)).Nodup
  numbers : e.allowsAlias = false → (e.values.map (·.number.toInt)).Nodup
  unreservedName : ∀ v ∈ e.values,
    ¬ (ReservedSet.ofStatements maxNumber e.reserved).HasName v.name.value
  unreservedNumber : ∀ v ∈ e.values,
    ¬ (ReservedSet.ofStatements maxNumber e.reserved).HasNumber v.number.toInt
  zeroFirst : edition = .proto3 → ∃ v, e.values.head? = some v ∧ v.number.toInt = 0

theorem Sound.exists_number (h : Sound edition e) (hv : v ∈ e.values) :
    ∃ number, v.number.toInt32? = some number :=
  Option.ne_none_iff_exists'.mp fun hnone =>
    Decl.IntLit.toInt32?_eq_none_iff.mp hnone (h.inRange v hv)

/-- A value is as it should be by itself. -/
def Fit (reserved : ReservedSet) (v : Decl.EnumValue) : Prop :=
  (-0x80000000 ≤ v.number.toInt ∧ v.number.toInt < 0x80000000) ∧
    ¬ reserved.HasName v.name.value ∧ ¬ reserved.HasNumber v.number.toInt

/-- Two values differ in code, and in number unless they may be aliases. -/
def Apart (e : Decl.Enum) (v w : Decl.EnumValue) : Prop :=
  Ident.variant v.name.value ≠ Ident.variant w.name.value ∧
    (e.allowsAlias = false → v.number.toInt ≠ w.number.toInt)

theorem valueFlaws_eq_nil_iff :
    valueFlaws e reserved before v = [] ↔ Fit reserved v ∧ ∀ w ∈ before, Apart e w v := by
  have hident : before.find? (Ident.variant ·.name.value == Ident.variant v.name.value) = none ↔
      ∀ w ∈ before, Ident.variant w.name.value ≠ Ident.variant v.name.value := by
    simp
  unfold Fit Apart
  cases hnumber : v.number.toInt32? with
  | none =>
    have hrange := Decl.IntLit.toInt32?_eq_none_iff.mp hnumber
    simp [valueFlaws, hnumber, hrange]
  | some number =>
    have htoInt := Decl.IntLit.toInt32?_eq_some_iff.mp hnumber
    have hrange : -0x80000000 ≤ v.number.toInt ∧ v.number.toInt < 0x80000000 := by
      have hle := number.le_toInt
      have hlt := number.toInt_lt
      omega
    have hfirst : before.find? (·.number.toInt32? == some number) = none ↔
        ∀ w ∈ before, w.number.toInt ≠ v.number.toInt := by
      simp only [List.find?_eq_none, beq_iff_eq, Decl.IntLit.toInt32?_eq_some_iff, htoInt]
      grind
    have hapart : (∀ w ∈ before, Ident.variant w.name.value ≠ Ident.variant v.name.value ∧
          (e.allowsAlias = false → w.number.toInt ≠ v.number.toInt)) ↔
        before.find? (Ident.variant ·.name.value == Ident.variant v.name.value) = none ∧
          (e.allowsAlias = false → before.find? (·.number.toInt32? == some number) = none) := by
      rw [hident, hfirst]
      constructor
      · intro h
        exact ⟨fun w hw => (h w hw).1, fun halias w hw => (h w hw).2 halias⟩
      · intro h w hw
        exact ⟨h.1 w hw, fun halias => h.2 halias w hw⟩
    unfold valueFlaws
    simp only [hnumber, htoInt, hapart, hrange, ← ReservedSet.name?_eq_none_iff,
      ← ReservedSet.number?_eq_none_iff]
    cases before.find? (Ident.variant ·.name.value == Ident.variant v.name.value) <;>
      cases before.find? (·.number.toInt32? == some number) <;>
      cases reserved.number? v.number.toInt <;> cases reserved.name? v.name.value <;>
      cases e.allowsAlias <;> simp

/-- All values, given those in front of them. -/
theorem valuesFlaws_eq_nil_iff :
    valuesFlaws e reserved before values = [] ↔
      (∀ v ∈ values, Fit reserved v) ∧ values.Pairwise (Apart e) ∧
        ∀ w ∈ before, ∀ v ∈ values, Apart e w v := by
  apply checks_eq_nil_iff (valuesFlaws e reserved) (valueFlaws e reserved)
  · intro before
    rfl
  · intro before v rest
    rfl
  · intro before v
    exact valueFlaws_eq_nil_iff

theorem firstValueFlaws_eq_nil_iff (hne : e.values ≠ []) :
    firstValueFlaws edition e = [] ↔
      (edition = .proto3 → ∃ v, e.values.head? = some v ∧ v.number.toInt = 0) := by
  obtain ⟨first, rest, hvalues⟩ := List.exists_cons_of_ne_nil hne
  have hzero : first.number.toInt32? = some 0 ↔ first.number.toInt = 0 :=
    Decl.IntLit.toInt32?_eq_some_iff.trans eq_comm
  cases edition with
  | proto2 => simp [firstValueFlaws]
  | proto3 => simp [firstValueFlaws, hvalues, hzero]

/-- **An enum has no flaws if and only if it is sound.** -/
theorem flaws_eq_nil_iff : flaws edition e = [] ↔ Sound edition e := by
  by_cases hne : e.values = []
  · simp only [flaws, hne, List.isEmpty_nil, if_true]
    constructor
    · intro h
      cases h
    · intro h
      exact absurd hne h.nonempty
  · have hsome : e.values.isEmpty = false := by simpa using hne
    rw [flaws, hsome, if_neg Bool.false_ne_true, List.append_eq_nil_iff, valuesFlaws_eq_nil_iff,
      firstValueFlaws_eq_nil_iff hne]
    unfold Fit Apart
    constructor
    · intro h
      obtain ⟨⟨hfit, hapart, _⟩, hfirst⟩ := h
      exact ⟨hne, fun v hv => (hfit v hv).1, List.pairwise_map.mpr (hapart.imp fun h => h.1),
        fun halias => List.pairwise_map.mpr (hapart.imp fun h => h.2 halias),
        fun v hv => (hfit v hv).2.1, fun v hv => (hfit v hv).2.2, hfirst⟩
    · intro h
      refine ⟨⟨fun v hv => ?_, ?_, fun w hw => ?_⟩, h.zeroFirst⟩
      · exact ⟨h.inRange v hv, h.unreservedName v hv, h.unreservedNumber v hv⟩
      · refine (List.pairwise_map.mp h.idents).and ?_
        cases halias : e.allowsAlias with
        | true => exact List.pairwise_of_forall fun _ _ h => nomatch h
        | false => simpa using List.pairwise_map.mp (h.numbers halias)
      · cases hw

end EnumRules

end Protobuf

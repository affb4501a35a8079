import Protobuf.Proofs.Code.Collisions
import Protobuf.Proofs.Source.Lexemes

/-! Which identifiers of generated code are legal.

Escaping makes a legal identifier of every name that has the shape of one. Snake case keeps that
shape. Pascal case drops the characters that are neither letters nor digits, so that a digit can get
to the front, or nothing is left (`identifiers_legal`). -/
namespace Protobuf.Ident
open Lexer

/-- What can stand for an identifier: a name that the language does not keep for itself, or one of
its keywords in raw form. -/
def Legal (name : String) : Prop :=
  (isIdentifier name = true ∧ name ≠ "_" ∧ name ∉ ["self", "super", "crate", "Self"] ∧
    name ∉ keywords) ∨
  ∃ word ∈ keywords, name = "r#" ++ word

instance (name : String) : Decidable (Legal name) :=
  inferInstanceAs (Decidable (_ ∨ _))

/-! ### Shapes of names -/

theorem isIdentifier_iff_head? {name : String} :
    isIdentifier name = true ↔ name.toList.head?.any isLetter = true ∧ IsPlain name := by
  unfold isIdentifier IsPlain
  cases name.toList with
  | nil => simp
  | cons c others =>
    simp only [Bool.and_eq_true, List.all_eq_true, List.head?_cons, Option.any_some,
      List.forall_mem_cons]
    refine and_congr_right fun hletter => ?_
    simp [isWordChar_of_isLetter hletter]

/-- Escaping leads to a legal identifier exactly if the name has the shape of one. -/
theorem legal_escape_iff {name : String} (h : IsPlain name) :
    Legal (escape name) ↔ isIdentifier name = true := by
  have hpath : ∀ word ∈ pathKeywords, Legal (word ++ "_") ∧ isIdentifier word = true := by
    decide +kernel
  have hkeyword : ∀ word ∈ keywords, isIdentifier word = true := by decide +kernel
  unfold escape
  split
  · rename_i hname
    exact iff_of_true (hpath name hname).1 (hpath name hname).2
  rename_i hname
  split
  · rename_i hword
    exact iff_of_true (.inr ⟨name, hword, rfl⟩) (hkeyword name hword)
  · rename_i hword
    refine ⟨?_, fun hshape => .inl ⟨hshape, ?_, ?_, hword⟩⟩
    · rintro (⟨hshape, -⟩ | ⟨word, -, hraw⟩)
      · exact hshape
      · exact absurd hraw.symm (raw_ne h)
    · rintro rfl
      exact hname (by decide)
    · exact fun hpath => hname (List.mem_append_left ["_"] hpath)

/-! ### Letters and digits -/

/-- Letters and digits are among the first 128 characters. -/
theorem forall_isAlphanum {P : Char → Prop}
    (h : ∀ n < 128, (Char.ofNat n).isAlphanum = true → P (Char.ofNat n)) {c : Char}
    (hc : c.isAlphanum = true) : P c := by
  have hsmall : c.toNat < 128 := by
    rcases Bool.or_eq_true_iff.mp hc with halpha | hdigit
    · rcases Bool.or_eq_true_iff.mp halpha with hupper | hlower
      · have hbounds : 65 ≤ c.val ∧ c.val ≤ 90 := of_decide_eq_true hupper
        exact Nat.lt_of_le_of_lt (UInt32.le_iff_toNat_le.mp hbounds.2) (by decide)
      · have hbound : c.val ≤ 122 := of_decide_eq_true (Bool.and_eq_true_iff.mp hlower).2
        exact Nat.lt_of_le_of_lt (UInt32.le_iff_toNat_le.mp hbound) (by decide)
    · exact Nat.lt_of_le_of_lt (Char.isDigit_iff_toNat.mp hdigit).2 (by decide)
  have := h c.toNat hsmall
  rw [Char.ofNat_toNat] at this
  exact this hc

/-- What a letter or digit is in the other case. It is decided at once for all of them. -/
theorem otherCase {c : Char} (hc : c.isAlphanum = true) :
    isWordChar c.toUpper = true ∧ isWordChar c.toLower = true ∧ isLetter c.toUpper = c.isAlpha ∧
      (c.isUpper = true → isLetter c.toLower = true) :=
  forall_isAlphanum (P := fun c => isWordChar c.toUpper = true ∧ isWordChar c.toLower = true ∧
    isLetter c.toUpper = c.isAlpha ∧ (c.isUpper = true → isLetter c.toLower = true))
    (by decide +kernel) hc

theorem isWordChar_toUpper {c : Char} (hc : c.isAlphanum = true) : isWordChar c.toUpper = true :=
  (otherCase hc).1

theorem isWordChar_toLower {c : Char} (hc : c.isAlphanum = true) : isWordChar c.toLower = true :=
  (otherCase hc).2.1

theorem isLetter_toUpper {c : Char} (hc : c.isAlphanum = true) : isLetter c.toUpper = c.isAlpha :=
  (otherCase hc).2.2.1

theorem isLetter_toLower {c : Char} (hc : c.isUpper = true) : isLetter c.toLower = true := by
  have halpha : c.isAlpha = true := Bool.or_eq_true_iff.mpr (.inl hc)
  have halphanum : c.isAlphanum = true := Bool.or_eq_true_iff.mpr (.inl halpha)
  exact (otherCase halphanum).2.2.2 hc

/-! ### Snake case -/

theorem isIdentifier_snake {name : String} (h : isIdentifier name = true) :
    isIdentifier (snake name) = true := by
  obtain ⟨c, others, rfl, hletter, -⟩ := isIdentifier_iff.mp h
  refine isIdentifier_iff_head?.mpr ⟨?_, snake_plain _⟩
  rw [snake, String.toList_ofList, String.toList_ofList, snakeFrom]
  split
  · rename_i hupper
    rw [if_neg (by simp [startsWord])]
    exact isLetter_toLower hupper
  split
  · exact hletter
  · rfl

/-! ### Pascal case -/

/-- Pascal case begins with the first letter or digit. -/
theorem head?_pascal (text : List Char) :
    ((words text).flatMap pascalWord).head? = (text.find? Char.isAlphanum).map Char.toUpper := by
  unfold words
  induction text with
  | nil => rfl
  | cons c rest ih =>
    cases hc : c.isAlphanum with
    | false =>
      rw [Split.pieces, if_pos (by simp [hc]), List.find?_cons_of_neg (by simp [hc]), ← ih]
      rfl
    | true =>
      obtain ⟨first, others, hpieces⟩ :=
        List.exists_cons_of_ne_nil (Split.pieces_ne_nil (!·.isAlphanum) rest)
      rw [Split.pieces, if_neg (by simp [hc]), hpieces, List.find?_cons_of_pos hc]
      rfl

theorem isAlphanum_of_mem_words {text piece : List Char} (hpiece : piece ∈ words text) :
    ∀ c ∈ piece, c.isAlphanum = true := by
  unfold words at hpiece
  induction text generalizing piece with
  | nil =>
    rw [List.mem_singleton.mp hpiece]
    exact List.forall_mem_nil _
  | cons c rest ih =>
    obtain ⟨first, others, hpieces⟩ :=
      List.exists_cons_of_ne_nil (Split.pieces_ne_nil (!·.isAlphanum) rest)
    cases hc : c.isAlphanum with
    | false =>
      rw [Split.pieces, if_pos (by simp [hc])] at hpiece
      rcases List.mem_cons.mp hpiece with rfl | hpiece
      · exact List.forall_mem_nil _
      · exact ih hpiece
    | true =>
      rw [Split.pieces, if_neg (by simp [hc]), hpieces] at hpiece
      rw [hpieces] at ih
      rcases List.mem_cons.mp hpiece with rfl | hpiece
      · exact List.forall_mem_cons.mpr ⟨hc, ih List.mem_cons_self⟩
      · exact ih (List.mem_cons_of_mem _ hpiece)

theorem isWordChar_of_mem_pascalWord {piece : List Char} (h : ∀ c ∈ piece, c.isAlphanum = true) :
    ∀ c ∈ pascalWord piece, isWordChar c = true := by
  cases piece with
  | nil => exact List.forall_mem_nil _
  | cons first rest =>
    obtain ⟨hfirst, hrest⟩ := List.forall_mem_cons.mp h
    refine List.forall_mem_cons.mpr ⟨isWordChar_toUpper hfirst, ?_⟩
    split
    · intro c hc
      rw [isWordChar, hrest c hc, Bool.true_or]
    · intro c hc
      obtain ⟨d, hd, rfl⟩ := List.mem_map.mp hc
      exact isWordChar_toLower (hrest d hd)

theorem pascal_plain (name : String) : IsPlain (pascal name) := by
  intro c hc
  rw [pascal, String.toList_ofList] at hc
  obtain ⟨piece, hpiece, hc⟩ := List.mem_flatMap.mp hc
  exact isWordChar_of_mem_pascalWord (isAlphanum_of_mem_words hpiece) c hc

theorem isIdentifier_pascal_iff {name : String} :
    isIdentifier (pascal name) = true ↔
      (name.toList.find? Char.isAlphanum).any Char.isAlpha = true := by
  rw [isIdentifier_iff_head?, and_iff_left (pascal_plain name), pascal, String.toList_ofList,
    head?_pascal]
  cases hfind : name.toList.find? Char.isAlphanum with
  | none => rfl
  | some c =>
    rw [Option.map_some, Option.any_some, Option.any_some, isLetter_toUpper (List.find?_some hfind)]

/-- **Which identifiers are legal.** For a name of the source, its escaped form and the identifiers
of a field and of a module always are. That of a variant is one exactly if the first letter or digit
of the name is a letter. -/
theorem identifiers_legal (name : String) (h : isIdentifier name = true) :
    Legal (escape name) ∧ Legal (field name) ∧ Legal (moduleName name) ∧
      (Legal (variant name) ↔ (name.toList.find? Char.isAlphanum).any Char.isAlpha = true) := by
  have hsnake : Legal (escape (snake name)) :=
    (legal_escape_iff (snake_plain name)).mpr (isIdentifier_snake h)
  refine ⟨(legal_escape_iff (isIdentifier_iff_head?.mp h).2).mpr h, hsnake, hsnake, ?_⟩
  rw [variant, legal_escape_iff (pascal_plain name), isIdentifier_pascal_iff]

/-- A name that each of the conversions turns into a word of the language. -/
theorem identifiers_legal_self : isIdentifier "Self" = true ∧
    Legal (escape "Self") ∧ Legal (field "Self") ∧ Legal (moduleName "Self") ∧
      (Legal (variant "Self") ↔ ("Self".toList.find? Char.isAlphanum).any Char.isAlpha = true) :=
  ⟨by decide, identifiers_legal "Self" (by decide)⟩

/-- The variants of two names of the source begin with a digit or are empty. -/
theorem illegal_variants :
    (isIdentifier "_1" = true ∧ variant "_1" = "1" ∧ ¬ Legal (variant "_1")) ∧
      isIdentifier "_" = true ∧ variant "_" = "" ∧ ¬ Legal (variant "_") := by
  decide +kernel

end Protobuf.Ident

import Mathlib.Data.List.Basic
import Protobuf.Code.Literal
import Protobuf.Proofs.Source.Rescan

/-! Byte string literals of generated code.

A literal is read from behind its opening quote, byte by byte: an escape is a backslash with one
character or with an `x` and two digits, and any other character stands for its own byte
(`ByteString.read`). The first quote outside an escape ends it. Whatever the bytes are, the body
that is written for them reaches up to the closing quote and is read as these bytes
(`literal_exact`). -/
namespace Protobuf.ByteString
open Lexer (digitValue isDigitOf digitValue_digitChar)

/-! ### Reading a literal -/

/-- The byte of an escape with a single character. -/
def escape? : Char → Option UInt8
  | 't' => some 0x09
  | 'r' => some 0x0D
  | 'n' => some 0x0A
  | '\\' => some 0x5C
  | '"' => some 0x22
  | _ => none

/-- A character that stands for its own byte. -/
def isPlain (c : Char) : Bool :=
  c.toNat < 0x80 && c != '"' && c != '\\' && c != '\r'

/-- Puts a byte in front of those that were read. -/
def cons (b : UInt8) (found : Bytes × List Char) : Bytes × List Char :=
  (b :: found.1, found.2)

/-- The bytes of the literal whose body begins the text, and the text behind its closing quote. -/
def read : List Char → Option (Bytes × List Char)
  | [] => none
  | '"' :: rest => some ([], rest)
  | '\\' :: 'x' :: high :: low :: rest =>
    if isDigitOf 16 high && isDigitOf 16 low then
      (read rest).map (cons (UInt8.ofNat (16 * digitValue high + digitValue low)))
    else none
  | '\\' :: c :: rest => (escape? c).bind fun b => (read rest).map (cons b)
  | c :: rest => if isPlain c then (read rest).map (cons (UInt8.ofNat c.toNat)) else none

/-- The bytes of an expression that is one literal, borrowed as a slice. -/
def slice? (text : String) : Option Bytes :=
  ("&b\"".toList.isPrefixOf? text.toList).bind fun body =>
    (read body).bind fun found => if found.2 = "[..]".toList then some found.1 else none

/-- What is left of a text without its escapes: each backslash is taken away with the character
behind it, so that a backslash stays only if it stands at the end and is not escaped itself. -/
def bare : List Char → List Char
  | [] => []
  | '\\' :: _ :: rest => bare rest
  | c :: rest => c :: bare rest

theorem bare_cons {c : Char} (h : c ≠ '\\') (rest : List Char) :
    bare (c :: rest) = c :: bare rest := by
  rw [bare]
  rintro _ _ rfl
  exact absurd rfl h

/-- Printable ASCII, from the space to the tilde. -/
def IsPrintable (c : Char) : Prop :=
  0x20 ≤ c.toNat ∧ c.toNat ≤ 0x7E

instance (c : Char) : Decidable (IsPrintable c) :=
  inferInstanceAs (Decidable (_ ∧ _))

/-! ### The characters of one byte -/

/-- The ways to write a byte with printable characters. -/
inductive Spells : List Char → UInt8 → Prop where
  | plain {c : Char} (hprintable : IsPrintable c) (hquote : c ≠ '"') (hslash : c ≠ '\\') :
    Spells [c] (UInt8.ofNat c.toNat)
  | escape {c : Char} {b : UInt8} (hescape : escape? c = some b) : Spells ['\\', c] b
  | hex (b : UInt8) : Spells ('\\' :: 'x' :: Escape.hexPair b) b

theorem spells_asciiChar {b : UInt8} (hmin : 0x20 ≤ b.toNat) (hmax : b.toNat ≤ 0x7E)
    (hquote : b ≠ 0x22) (hslash : b ≠ 0x5C) : Spells [Escape.asciiChar b] b := by
  have hvalue : (Escape.asciiChar b).toNat = b.toNat := Lexer.toNat_ofNat _ (by omega)
  have hplain : Lexer.IsPlainIn '"' (Escape.asciiChar b) :=
    Lexer.isPlainIn_ofNat hmin (by omega) (fun heq => hquote (UInt8.toNat_inj.mp heq))
      (fun heq => hslash (UInt8.toNat_inj.mp heq))
  have hspells := Spells.plain ⟨hvalue ▸ hmin, hvalue ▸ hmax⟩ hplain.quote hplain.slash
  rwa [hvalue, UInt8.ofNat_toNat] at hspells

theorem spells_literalByte (b : UInt8) : Spells (Escape.literalByte b) b := by
  unfold Escape.literalByte
  split
  · rename_i h
    exact .escape (h ▸ rfl)
  split
  · rename_i h
    exact .escape (h ▸ rfl)
  split
  · rename_i h
    exact .escape (h ▸ rfl)
  split
  · rename_i h
    exact .escape (h ▸ rfl)
  split
  · rename_i h
    exact .escape (h ▸ rfl)
  split
  · rename_i hslash hquote h
    exact spells_asciiChar (UInt8.le_iff_toNat_le.mp h.1) (UInt8.le_iff_toNat_le.mp h.2) hquote
      hslash
  · exact .hex b

theorem isPrintable_of_escape? {c : Char} {b : UInt8} (h : escape? c = some b) :
    IsPrintable c := by
  unfold escape? at h
  split at h
  · decide
  · decide
  · decide
  · decide
  · decide
  · cases h

theorem hexPair_plain (b : UInt8) :
    ∀ c ∈ Escape.hexPair b, IsPrintable c ∧ c ≠ '"' ∧ c ≠ '\\' := by
  have hdigit : ∀ n < 16, IsPrintable (Nat.digitChar n) ∧ Nat.digitChar n ≠ '"' ∧
      Nat.digitChar n ≠ '\\' := by decide
  have hb := b.toNat_lt
  simp only [Escape.hexPair, List.forall_mem_cons]
  exact ⟨hdigit _ (by omega), hdigit _ (by omega), List.forall_mem_nil _⟩

namespace Spells
variable {text : List Char} {b : UInt8}

theorem isPrintable (h : Spells text b) : ∀ c ∈ text, IsPrintable c := by
  cases h with
  | plain hprintable => exact List.forall_mem_singleton.mpr hprintable
  | escape hescape =>
    exact List.forall_mem_cons.mpr
      ⟨by decide, List.forall_mem_singleton.mpr (isPrintable_of_escape? hescape)⟩
  | hex =>
    simp only [List.forall_mem_cons]
    exact ⟨by decide, by decide, fun c hc => (hexPair_plain b c hc).1⟩

/-- A byte is read from its characters, whatever follows them. -/
theorem read_append (h : Spells text b) (rest : List Char) :
    read (text ++ rest) = (read rest).map (cons b) := by
  cases h with
  | @plain c hprintable hquote hslash =>
    have hreturn : c ≠ '\r' := by
      rintro rfl
      exact absurd hprintable (by decide)
    have hplain : isPlain c = true := by
      simp only [isPlain, Bool.and_eq_true, decide_eq_true_eq, bne_iff_ne]
      exact ⟨⟨⟨Nat.lt_of_le_of_lt hprintable.2 (by decide), hquote⟩, hslash⟩, hreturn⟩
    rw [List.singleton_append, read, if_pos hplain]
    -- The other patterns of `read` begin with a quote or a backslash.
    · exact hquote
    · rintro _ _ _ rfl
      exact absurd rfl hslash
    · rintro _ _ rfl
      exact absurd rfl hslash
  | @escape c _ hescape =>
    have hx : c ≠ 'x' := by
      rintro rfl
      cases hescape
    rw [List.cons_append, List.singleton_append, read, hescape, Option.bind_some]
    rintro _ _ _ rfl
    exact absurd rfl hx
  | hex =>
    have hb := b.toNat_lt
    have hhigh := digitValue_digitChar (b.toNat / 16) (by omega)
    have hlow := digitValue_digitChar (b.toNat % 16) (by omega)
    have hdigits : (isDigitOf 16 (Nat.digitChar (b.toNat / 16)) &&
        isDigitOf 16 (Nat.digitChar (b.toNat % 16))) = true := by
      simp only [isDigitOf, hhigh, hlow, Bool.and_eq_true, decide_eq_true_eq]
      omega
    simp only [Escape.hexPair, List.cons_append, List.nil_append]
    rw [read, if_pos hdigits, hhigh, hlow, Nat.div_add_mod, UInt8.ofNat_toNat]

/-- The characters of a byte leave no quote and no backslash outside its escape. -/
theorem bare_append (h : Spells text b) {rest : List Char}
    (hrest : ∀ c ∈ bare rest, c ≠ '"' ∧ c ≠ '\\') :
    ∀ c ∈ bare (text ++ rest), c ≠ '"' ∧ c ≠ '\\' := by
  cases h with
  | plain _ hquote hslash =>
    rw [List.singleton_append, bare_cons hslash]
    exact List.forall_mem_cons.mpr ⟨⟨hquote, hslash⟩, hrest⟩
  | escape _ => exact hrest
  | hex =>
    -- The escape takes the `x` away, and the two digits stay.
    obtain ⟨⟨-, hhigh⟩, ⟨-, hlow⟩, -⟩ : _ ∧ _ ∧ _ := by
      simpa only [Escape.hexPair, List.forall_mem_cons] using hexPair_plain b
    show ∀ c ∈ bare (_ :: _ :: rest), c ≠ '"' ∧ c ≠ '\\'
    rw [bare_cons hhigh.2, bare_cons hlow.2]
    exact List.forall_mem_cons.mpr ⟨hhigh, List.forall_mem_cons.mpr ⟨hlow, hrest⟩⟩

end Spells

/-! ### The characters of all bytes -/

theorem isPrintable_literal (bytes : Bytes) : ∀ c ∈ Escape.literal bytes, IsPrintable c := by
  intro c hc
  obtain ⟨b, -, hb⟩ := List.mem_flatMap.mp hc
  exact (spells_literalByte b).isPrintable c hb

theorem bare_literal (bytes : Bytes) :
    ∀ c ∈ bare (Escape.literal bytes), c ≠ '"' ∧ c ≠ '\\' := by
  induction bytes with
  | nil => exact List.forall_mem_nil _
  | cons b bytes ih => exact (spells_literalByte b).bare_append ih

theorem read_literal (bytes : Bytes) (rest : List Char) :
    read (Escape.literal bytes ++ '"' :: rest) = some (bytes, rest) := by
  induction bytes with
  | nil => rfl
  | cons b bytes ih =>
    have hcons : Escape.literal (b :: bytes) = Escape.literalByte b ++ Escape.literal bytes := rfl
    rw [hcons, List.append_assoc, (spells_literalByte b).read_append, ih, Option.map_some, cons]

theorem slice?_value (bytes : Bytes) : slice? (Literal.value (.bytes bytes)) = some bytes := by
  have htext : (Literal.value (.bytes bytes)).toList =
      "&b\"".toList ++ (Escape.literal bytes ++ '"' :: "[..]".toList) := by
    simp only [Literal.value, String.toList_append, String.toList_ofList, List.append_assoc]
    rfl
  have hopen : "&b\"".toList.isPrefixOf? (Literal.value (.bytes bytes)).toList =
      some (Escape.literal bytes ++ '"' :: "[..]".toList) :=
    List.isPrefixOf?_eq_some_iff_append_eq.mpr htext.symm
  rw [slice?, hopen, Option.bind_some, read_literal, Option.bind_some, if_pos rfl]

/-- **Bytes are kept by the literals of generated code.** The body of a literal is printable, has
neither a quote nor a backslash outside its escapes, and is read as the bytes it was written for,
whatever stands behind its closing quote. So is a default in its expression. -/
theorem literal_exact (bytes : Bytes) :
    (∀ c ∈ Escape.literal bytes, IsPrintable c) ∧
    (∀ c ∈ bare (Escape.literal bytes), c ≠ '"' ∧ c ≠ '\\') ∧
    (∀ rest, read (Escape.literal bytes ++ '"' :: rest) = some (bytes, rest)) ∧
    slice? (Literal.value (.bytes bytes)) = some bytes :=
  ⟨isPrintable_literal bytes, bare_literal bytes, read_literal bytes, slice?_value bytes⟩

-- A third digit, and an `x` behind an escaped backslash, are bytes of their own.
example : read "\\x01f\\\\x\"".toList = some ([0x01, 0x66, 0x5C, 0x78], []) := by decide

end Protobuf.ByteString

import Protobuf.Proofs.Source.Lexemes

/-! Tokens read back from their texts.

A word, an integer, a string and a sign are written so that they are read as the same token, without
a fault, in front of a blank or the end of the text. So a text of such tokens with a space between
any two has these tokens again (`scan_text`). -/
namespace Protobuf

namespace Lexer

/-! ### Digits -/

theorem digitValue_digitChar : ∀ n < 16, digitValue (Nat.digitChar n) = n := by
  decide

/-- The digits of a number stand for it. -/
theorem digitsValue_toDigits {radix : Nat} (hmin : 1 < radix) (hmax : radix ≤ 16) (n : Nat) :
    digitsValue radix (Nat.toDigits radix n) = n := by
  induction n using Nat.strongRecOn with
  | ind n ih =>
    by_cases hn : n < radix
    · rw [Nat.toDigits_of_lt_base hn]
      simp [digitsValue, digitValue_digitChar n (by omega)]
    · have hlast : digitValue (Nat.digitChar (n % radix)) = n % radix :=
        digitValue_digitChar _ (Nat.lt_of_lt_of_le (Nat.mod_lt n (by omega)) hmax)
      have hfront := ih (n / radix) (Nat.div_lt_self (by omega) hmin)
      rw [Nat.toDigits_of_base_le hmin (Nat.le_of_not_lt hn), digitsValue, List.foldl_append,
        ← digitsValue, hfront, List.foldl_cons, List.foldl_nil, hlast, Nat.mul_comm,
        Nat.div_add_mod]

/-- Only zero is written with a zero in front. -/
theorem eq_zero_of_head?_toDigits {n : Nat} (h : (Nat.toDigits 10 n).head? = some '0') : n = 0 := by
  induction n using Nat.strongRecOn with
  | ind n ih =>
    by_cases hn : n < 10
    · rw [Nat.toDigits_of_lt_base hn, List.head?_cons, Option.some.injEq,
        Nat.digitChar_eq_zero] at h
      exact h
    · obtain ⟨first, others, hfront⟩ :=
        List.exists_cons_of_ne_nil (@Nat.toDigits_ne_nil (n / 10) 10)
      rw [Nat.toDigits_of_base_le (by decide) (Nat.le_of_not_lt hn), hfront] at h
      have := ih (n / 10) (by omega) (by rw [hfront]; exact h)
      omega

theorem isDigitOf_of_isDigit {c : Char} (h : c.isDigit = true) : isDigitOf 10 c = true := by
  have hbounds := Char.isDigit_iff_toNat.mp h
  have hvalue : digitValue c = c.toNat - '0'.toNat := if_pos h
  rw [isDigitOf, decide_eq_true_eq, hvalue]
  have : '9'.toNat = '0'.toNat + 9 := rfl
  omega

/-! ### Bytes of strings -/

theorem escaped_hexPair (b : UInt8) (rest : List Char) :
    escaped ('x' :: (Escape.hexPair b ++ rest)) = ⟨[b], 3, none⟩ := by
  have hb := b.toNat_lt
  have hhigh := digitValue_digitChar (b.toNat / 16) (by omega)
  have hlow := digitValue_digitChar (b.toNat % 16) (by omega)
  have hdigits : ((Escape.hexPair b ++ rest).take 2).takeWhile (isDigitOf 16) =
      Escape.hexPair b := by
    have hall : ∀ d ∈ Escape.hexPair b, isDigitOf 16 d = true := by
      simp only [Escape.hexPair, List.forall_mem_cons, isDigitOf, hhigh, hlow, decide_eq_true_eq]
      exact ⟨by omega, by omega, List.forall_mem_nil _⟩
    have htake : (Escape.hexPair b ++ rest).take 2 = Escape.hexPair b := List.take_left' rfl
    rw [htake, ← List.append_nil (Escape.hexPair b), takeWhile_run hall (stops_nil _),
      List.append_nil]
  have hvalue : digitsValue 16 (Escape.hexPair b) = b.toNat := by
    simp only [Escape.hexPair, digitsValue, List.foldl_cons, List.foldl_nil, hhigh, hlow]
    omega
  simp only [escaped, hdigits, hvalue]
  simp [Escape.hexPair]

theorem encodeChar_ofNat : ∀ n < 0x80, Utf8.encodeChar (Char.ofNat n) = [UInt8.ofNat n] := by
  decide +kernel

theorem toNat_ofNat : ∀ n < 0x80, (Char.ofNat n).toNat = n := by
  decide +kernel

theorem isPlainIn_ofNat {n : Nat} (hmin : 0x20 ≤ n) (hmax : n < 0x80) (hquote : n ≠ 0x22)
    (hslash : n ≠ 0x5C) : IsPlainIn '"' (Char.ofNat n) := by
  have hne : ∀ c : Char, n ≠ c.toNat → Char.ofNat n ≠ c := by
    rintro c hc rfl
    exact hc (toNat_ofNat n hmax).symm
  have hline : n ≠ '\n'.toNat := by
    change n ≠ 10
    omega
  have hzero : n ≠ (Char.ofNat 0).toNat := by
    change n ≠ 0
    omega
  exact ⟨hne _ hquote, hne _ hline, hne _ hslash, hne _ hzero⟩

/-- A byte is shown by an escape or by a character that stands for itself. -/
theorem shownByte_cases (b : UInt8) :
    (∃ behind, Escape.shownByte b = '\\' :: behind ∧
      ∀ rest, escaped (behind ++ rest) = ⟨[b], behind.length, none⟩) ∨
    ∃ c, Escape.shownByte b = [c] ∧ IsPlainIn '"' c ∧ Utf8.encodeChar c = [b] := by
  unfold Escape.shownByte Escape.literalByte
  split
  · rename_i h
    exact .inl ⟨['\''], rfl, fun _ => h ▸ rfl⟩
  split
  · rename_i h
    exact .inl ⟨['t'], rfl, fun _ => h ▸ rfl⟩
  split
  · rename_i h
    exact .inl ⟨['r'], rfl, fun _ => h ▸ rfl⟩
  split
  · rename_i h
    exact .inl ⟨['n'], rfl, fun _ => h ▸ rfl⟩
  split
  · rename_i h
    exact .inl ⟨['\\'], rfl, fun _ => h ▸ rfl⟩
  split
  · rename_i h
    exact .inl ⟨['"'], rfl, fun _ => h ▸ rfl⟩
  split
  · rename_i hslash hquote h
    have hmin : 0x20 ≤ b.toNat := UInt8.le_iff_toNat_le.mp h.1
    have hmax : b.toNat ≤ 0x7E := UInt8.le_iff_toNat_le.mp h.2
    refine .inr ⟨Escape.asciiChar b, rfl, isPlainIn_ofNat hmin (by omega) ?_ ?_, ?_⟩
    · exact fun heq => hquote (UInt8.toNat_inj.mp heq)
    · exact fun heq => hslash (UInt8.toNat_inj.mp heq)
    · rw [Escape.asciiChar, encodeChar_ofNat _ (by omega), UInt8.ofNat_toNat]
  · exact .inl ⟨'x' :: Escape.hexPair b, rfl, escaped_hexPair b⟩

/-- A byte is read back from the characters that show it. -/
theorem stringBody_shownByte (start pos : Nat) (b : UInt8) (rest : List Char) :
    stringBody start '"' pos (Escape.shownByte b ++ rest) =
      (stringBody start '"' (pos + byteLength (Escape.shownByte b)) rest).cons [b]
        (Escape.shownByte b).length [] := by
  rcases shownByte_cases b with ⟨behind, hshown, hescaped⟩ | ⟨c, hshown, hplain, hbytes⟩
  · rw [hshown, List.cons_append, stringBody_escaped (by decide), hescaped,
      List.take_left' rfl, List.drop_left' rfl, List.length_cons, Nat.add_comm 1, byteLength,
      Nat.add_assoc]
    rfl
  · rw [hshown, List.singleton_append, stringBody_plain hplain, hbytes]
    rfl

/-- A string is read back from the characters that show its bytes. -/
theorem stringBody_shown (start pos : Nat) (bytes : Bytes) (rest : List Char) :
    stringBody start '"' pos (Escape.bytes bytes ++ '"' :: rest) =
      ⟨bytes, (Escape.bytes bytes).length + 1, []⟩ := by
  induction bytes generalizing pos with
  | nil => rw [Escape.bytes, List.flatMap_nil, List.nil_append, stringBody, if_pos rfl]; rfl
  | cons b bytes ih =>
    have hcons : Escape.bytes (b :: bytes) = Escape.shownByte b ++ Escape.bytes bytes := rfl
    rw [hcons, List.append_assoc, stringBody_shownByte, ih, Body.cons, List.length_append,
      Nat.add_assoc]
    rfl

/-! ### Tokens -/

/-- The text ends here, or goes on with a space. -/
def Ends (rest : List Char) : Prop :=
  ∀ c, rest.head? = some c → c = ' '

theorem ends_nil : Ends [] := by
  intro c hc
  cases hc

namespace Ends
variable {rest : List Char}

theorem stops {p : Char → Bool} (h : Ends rest) (hp : p ' ' = false) : Stops p rest := by
  intro c hc
  rw [h c hc, hp]

theorem head?_ne {c : Char} (h : Ends rest) (hc : c ≠ ' ') : rest.head? ≠ some c :=
  fun hhead => hc (h c hhead)

theorem exponentLength (h : Ends rest) : exponentLength rest = 0 := by
  cases rest with
  | nil => rfl
  | cons c _ => rw [exponentLength_cons, h c rfl, if_neg (by decide)]

theorem not_isHex (h : Ends rest) : ¬ IsHex rest := by
  rintro ⟨mark, digit, behind, rfl, hmark, -⟩
  rw [h mark rfl] at hmark
  revert hmark
  decide

theorem spaceFaults (h : Ends rest) (start stop : Nat) : spaceFaults start stop rest = [] := by
  cases rest with
  | nil => rfl
  | cons c _ => rw [Lexer.spaceFaults, h c rfl, if_neg (by decide)]

end Ends

/-- The characters are read as this token, all of them and without a fault, wherever a space or the
end of the text follows. -/
def Rereads (written : List Char) (t : Token) : Prop :=
  ∃ c body, written = c :: body ∧ isBlank c = false ∧
    ∀ pos rest, Ends rest → token pos c (body ++ rest) = ⟨some t, body.length, []⟩

theorem isBlank_eq_false {c : Char} (h : isLetter c = true ∨ c.isDigit = true) :
    isBlank c = false := by
  have hsmall : ∀ n < 33, ¬(isLetter (Char.ofNat n) = true ∨ (Char.ofNat n).isDigit = true) := by
    decide +kernel
  have hlarge : ¬ c.toNat < 33 := fun hc => hsmall c.toNat hc (by rwa [Char.ofNat_toNat])
  have hspace : c ≠ ' ' := by
    rintro rfl
    exact hlarge (by decide)
  simp only [isBlank, Bool.or_eq_false_iff, beq_eq_false_iff_ne, Bool.and_eq_false_iff,
    decide_eq_false_iff_not]
  exact ⟨hspace, .inr (by omega)⟩

theorem rereads_ident {name : String} (h : isIdentifier name = true) :
    Rereads name.toList (.ident name) := by
  obtain ⟨c, others, rfl, hletter, hothers⟩ := isIdentifier_iff.mp h
  refine ⟨c, others, String.toList_ofList, isBlank_eq_false (.inl hletter), ?_⟩
  intro pos rest hrest
  rw [token_letter hletter, word_run hothers (hrest.stops (by decide))]

theorem wholeToken_toDigits (start n : Nat) (rest : List Char) :
    wholeToken start (Nat.toDigits 10 n) rest =
      intToken start 10 (Nat.toDigits 10 n) (Nat.toDigits 10 n).length rest := by
  unfold wholeToken
  split
  · rename_i second others hdigits
    have hzero : n = 0 := eq_zero_of_head?_toDigits (by rw [hdigits]; rfl)
    rw [hzero, Nat.toDigits_zero] at hdigits
    cases hdigits
  · rfl

theorem rereads_int (value : UInt64) : Rereads (Nat.toDigits 10 value.toNat) (.int value) := by
  have hdigits : ∀ c ∈ Nat.toDigits 10 value.toNat, c.isDigit = true := fun c hc =>
    Nat.isDigit_of_mem_toDigits (by decide) (by decide) hc
  obtain ⟨c, body, hbody⟩ := List.exists_cons_of_ne_nil (@Nat.toDigits_ne_nil value.toNat 10)
  have hc : c.isDigit = true := hdigits c (hbody ▸ List.mem_cons_self)
  refine ⟨c, body, hbody, isBlank_eq_false (.inr hc), fun pos rest hrest => ?_⟩
  have hfits : ((Nat.toDigits 10 value.toNat).all (isDigitOf 10) &&
      decide (value.toNat < 0x10000000000000000)) = true := by
    rw [Bool.and_eq_true, List.all_eq_true, decide_eq_true_eq]
    exact ⟨fun d hd => isDigitOf_of_isDigit (hdigits d hd), value.toNat_lt⟩
  rw [token_digit hc, ← List.cons_append, ← hbody, number_whole hdigits (hrest.stops (by decide))
    (hrest.head?_ne (by decide)) hrest.exponentLength (fun _ => hrest.not_isHex),
    wholeToken_toDigits, intToken, digitsValue_toDigits (by decide) (by decide), hfits,
    hrest.spaceFaults, hbody]
  simp

theorem rereads_string (bytes : Bytes) :
    Rereads ('"' :: Escape.bytes bytes ++ ['"']) (.string bytes) := by
  refine ⟨'"', Escape.bytes bytes ++ ['"'], rfl, by decide, fun pos rest _ => ?_⟩
  rw [token_quote (.inl rfl), string, List.append_assoc, List.singleton_append, stringBody_shown,
    List.length_append]
  rfl

theorem rereads_punct (sign : Punct) : Rereads [sign.toChar] (.punct sign) := by
  refine ⟨sign.toChar, [], rfl, by cases sign <;> rfl, fun pos rest hrest => ?_⟩
  have hpoint : ¬(sign.toChar = '.' ∧ rest.head?.any Char.isDigit = true) := by
    rintro ⟨-, hdigit⟩
    cases hhead : rest.head? with
    | none => simp [hhead] at hdigit
    | some c => simp [hhead, hrest c hhead, Char.isDigit] at hdigit
  rw [List.nil_append, token_single (by cases sign <;> rfl) (by cases sign <;> rfl) hpoint
    (by cases sign <;> decide) (fun hslash => absurd hslash (by cases sign <;> decide)), single,
    Punct.ofChar?_toChar]
  rfl

end Lexer

namespace Token
open Lexer

/-- The tokens whose texts are exact: a name that is one, an integer, a string, and a sign. -/
def isExact : Token → Bool
  | ident name => isIdentifier name
  | int _ | string _ | punct _ => true
  | float _ | lineComment _ | blockComment _ => false

theorem rereads_text {t : Token} (h : t.isExact = true) : Rereads t.text.toList t := by
  cases t with
  | ident name => exact rereads_ident h
  | int value => exact Nat.toList_repr ▸ rereads_int value
  | string bytes => exact String.toList_ofList ▸ rereads_string bytes
  | punct sign => exact String.toList_ofList ▸ rereads_punct sign
  | float _ | lineComment _ | blockComment _ => cases h

end Token

/-! ### Texts of tokens -/

/-- What a lexeme is, apart from its place. -/
def Lexeme.reading (lexeme : Lexeme) : Option Token × List Fault :=
  (lexeme.token, lexeme.faults)

namespace Lexer

theorem Rereads.scanFrom {written : List Char} {t : Token} (h : Rereads written t)
    (rest : List Char) (hrest : Ends rest) (pos : Nat) :
    ∃ stop, (scanFrom pos (written ++ rest)).map Lexeme.reading =
      (some t, []) :: (scanFrom stop rest).map Lexeme.reading := by
  obtain ⟨c, body, rfl, hblank, htoken⟩ := h
  refine ⟨pos + byteLength (c :: body), ?_⟩
  rw [List.cons_append, Lexer.scanFrom, if_neg (by simp [hblank])]
  simp only [htoken pos rest hrest, List.take_left, List.drop_left, List.map_cons, Lexeme.reading]

theorem scanFrom_intercalate {tokens : List Token} (h : ∀ t ∈ tokens, t.isExact = true)
    (pos : Nat) :
    (scanFrom pos (" ".intercalate (tokens.map Token.text)).toList).map Lexeme.reading =
      tokens.map fun t => (some t, []) := by
  induction tokens generalizing pos with
  | nil =>
    rw [List.map_nil, String.intercalate_nil, String.toList_empty, scanFrom]
    rfl
  | cons t tokens ih =>
    obtain ⟨ht, htokens⟩ := List.forall_mem_cons.mp h
    have hreads := Token.rereads_text ht
    cases tokens with
    | nil =>
      obtain ⟨stop, hscan⟩ := hreads.scanFrom [] ends_nil pos
      rw [List.append_nil, scanFrom] at hscan
      rw [List.map_singleton, String.intercalate_singleton, hscan]
      rfl
    | cons u tokens =>
      obtain ⟨stop, hscan⟩ := hreads.scanFrom
        (' ' :: (" ".intercalate ((u :: tokens).map Token.text)).toList)
        (fun c hc => (Option.some.inj hc).symm) pos
      rw [scanFrom, if_pos (by decide), ih htokens] at hscan
      rw [List.map_cons, List.map_cons, String.intercalate_cons_cons, String.toList_append,
        String.toList_append, List.append_assoc]
      exact hscan

/-- **Tokens are read back from their texts**, with a space between any two, and without a fault. -/
theorem scan_text (tokens : List Token) (h : ∀ t ∈ tokens, t.isExact = true) :
    (scan (" ".intercalate (tokens.map Token.text))).map Lexeme.reading =
      tokens.map fun t => (some t, []) :=
  scanFrom_intercalate h 0

/-- Bytes that are no text, a quote and a digit behind an escape, and the largest integer. -/
theorem scan_text_extremes :
    let tokens : List Token :=
      [.ident "_x0", .punct .dot, .int 0xFFFFFFFFFFFFFFFF, .string [0xFF, 0x22, 0x01, 0x61], .int 0]
    (∀ t ∈ tokens, t.isExact = true) ∧
      (scan (" ".intercalate (tokens.map Token.text))).map Lexeme.reading =
        tokens.map fun t => (some t, []) :=
  ⟨by decide, scan_text _ (by decide)⟩

end Lexer

end Protobuf

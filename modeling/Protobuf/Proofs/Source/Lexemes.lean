import Protobuf.Source.Lexer

/-! What a lexeme is made of.

For each kind of token, the characters that it is read from are given in full, with what may follow
them. A lexeme depends on its own characters only: read from these alone it is the same token
(`exists_token`). Its faults may differ, since an integer must not run into a word behind it. -/
namespace Protobuf.Lexer

/-! ### Runs of characters -/

/-- The text does not begin with a character of this class. -/
def Stops (p : Char → Bool) (text : List Char) : Prop :=
  ∀ c, text.head? = some c → p c = false

theorem stops_nil (p : Char → Bool) : Stops p [] :=
  nofun

theorem Stops.take {p : Char → Bool} {text : List Char} (h : Stops p text) (n : Nat) :
    Stops p (text.take n) := by
  intro c hc
  cases n with
  | zero => simp at hc
  | succ n =>
    cases text with
    | nil => simp at hc
    | cons d rest => exact h c hc

theorem takeWhile_run {p : Char → Bool} {run rest : List Char} (hrun : ∀ c ∈ run, p c = true)
    (hrest : Stops p rest) : (run ++ rest).takeWhile p = run := by
  rw [List.takeWhile_append_of_pos hrun]
  cases rest with
  | nil => simp
  | cons c rest => simp [hrest c rfl]

/-- Every text begins with a run of characters of a class, which may be empty. -/
theorem exists_run (p : Char → Bool) (text : List Char) :
    ∃ run rest, text = run ++ rest ∧ (∀ c ∈ run, p c = true) ∧ Stops p rest := by
  refine ⟨text.takeWhile p, text.dropWhile p, List.takeWhile_append_dropWhile.symm,
    fun c hc => List.all_eq_true.mp List.all_takeWhile c hc, fun c hc => ?_⟩
  have hhead := List.head?_dropWhile_not p text
  rw [hc] at hhead
  simpa using hhead

/-- The same token of the same length, with other faults perhaps. -/
structure Found.Same (a b : Found) : Prop where
  token : a.token = b.token
  extra : a.extra = b.extra

/-! ### Words -/

/-- A letter or an underscore, and then letters, digits and underscores. -/
def isIdentifier (name : String) : Bool :=
  match name.toList with
  | [] => false
  | c :: others => isLetter c && others.all isWordChar

theorem isIdentifier_ofList {c : Char} {others : List Char} :
    isIdentifier (String.ofList (c :: others)) = true ↔
      isLetter c = true ∧ ∀ d ∈ others, isWordChar d = true := by
  rw [isIdentifier, String.toList_ofList, Bool.and_eq_true, List.all_eq_true]

theorem isIdentifier_iff {name : String} :
    isIdentifier name = true ↔ ∃ c others, name = String.ofList (c :: others) ∧
      isLetter c = true ∧ ∀ d ∈ others, isWordChar d = true := by
  constructor
  · intro h
    cases hname : name.toList with
    | nil =>
      rw [isIdentifier, hname] at h
      cases h
    | cons c others =>
      have hofList : name = String.ofList (c :: others) := by rw [← hname, String.ofList_toList]
      exact ⟨c, others, hofList, isIdentifier_ofList.mp (hofList ▸ h)⟩
  · rintro ⟨c, others, rfl, h⟩
    exact isIdentifier_ofList.mpr h

theorem word_run {c : Char} {others rest : List Char} (hothers : ∀ d ∈ others, isWordChar d = true)
    (hrest : Stops isWordChar rest) :
    word c (others ++ rest) = ⟨some (.ident (String.ofList (c :: others))), others.length, []⟩ := by
  rw [word, takeWhile_run hothers hrest]

/-! ### Numbers -/

/-- The length of an exponent with a sign of so many characters. -/
def exponentFrom (signed : Nat) (rest : List Char) : Nat :=
  let digits := ((rest.drop signed).takeWhile Char.isDigit).length
  if digits = 0 then 0 else 1 + signed + digits

theorem exponentLength_cons (mark : Char) (rest : List Char) :
    exponentLength (mark :: rest) =
      if mark == 'e' || mark == 'E' then
        exponentFrom (if rest.head?.any fun sign => sign == '+' || sign == '-' then 1 else 0) rest
      else 0 := by
  cases rest <;> rfl

theorem exponentFrom_eq_zero_or (signed : Nat) (rest : List Char) :
    exponentFrom signed rest = 0 ∨
      ∃ n, ((rest.drop signed).takeWhile Char.isDigit).length = n + 1 ∧
        exponentFrom signed rest = signed + n + 2 := by
  unfold exponentFrom
  cases ((rest.drop signed).takeWhile Char.isDigit).length with
  | zero => exact .inl rfl
  | succ n => exact .inr ⟨n, rfl, by simp; omega⟩

theorem exponentFrom_le (signed : Nat) (rest : List Char) :
    exponentFrom signed rest ≤ rest.length + 1 := by
  have hle := (List.takeWhile_prefix (l := rest.drop signed) Char.isDigit).length_le
  rw [List.length_drop] at hle
  rcases exponentFrom_eq_zero_or signed rest with hzero | ⟨n, hdigits, hlength⟩ <;> omega

theorem exponentLength_le (text : List Char) : exponentLength text ≤ text.length := by
  cases text with
  | nil => exact Nat.le.refl
  | cons mark rest =>
    rw [exponentLength_cons]
    split
    · exact exponentFrom_le _ rest
    · exact Nat.zero_le _

theorem takeWhile_take {p : Char → Bool} {text : List Char} {n : Nat}
    (h : (text.takeWhile p).length ≤ n) : (text.take n).takeWhile p = text.takeWhile p := by
  obtain ⟨run, rest, rfl, hrun, hrest⟩ := exists_run p text
  rw [takeWhile_run hrun hrest] at h ⊢
  rw [List.take_append, List.take_of_length_le h, takeWhile_run hrun (hrest.take _)]

/-- An exponent is found again in its own characters. -/
theorem exponentLength_take (text : List Char) :
    exponentLength (text.take (exponentLength text)) = exponentLength text := by
  cases text with
  | nil => rfl
  | cons mark rest =>
    rw [exponentLength_cons]
    split
    · rename_i hmark
      generalize hsigned :
        (if rest.head?.any fun sign => sign == '+' || sign == '-' then 1 else 0) = signed
      rcases exponentFrom_eq_zero_or signed rest with hzero | ⟨n, hdigits, hlength⟩
      · rw [hzero]
        rfl
      · -- There is a mark and a digit, so that a sign between them is kept.
        have hhead : (rest.take (signed + n + 1)).head? = rest.head? := by cases rest <;> rfl
        rw [hlength, List.take_succ_cons, exponentLength_cons, if_pos hmark, hhead, hsigned,
          ← hlength, exponentFrom, exponentFrom, List.drop_take, takeWhile_take (by omega)]
    · rfl

section Numbers
variable {whole after : List Char}

/-- A float with a point. -/
theorem number_point {fraction tail : List Char} (hwhole : ∀ c ∈ whole, c.isDigit = true)
    (hfraction : ∀ c ∈ fraction, c.isDigit = true) (htail : Stops Char.isDigit tail) (start : Nat) :
    number start (whole ++ '.' :: (fraction ++ tail)) =
      ⟨some (floatToken whole fraction (tail.take (exponentLength tail))),
        whole.length + fraction.length + exponentLength tail, []⟩ := by
  have hpoint : Stops Char.isDigit ('.' :: (fraction ++ tail)) := by
    intro c hc
    cases hc
    rfl
  simp only [number, takeWhile_run hwhole hpoint, takeWhile_run hfraction htail, List.drop_left,
    List.length_take_of_le (exponentLength_le tail)]

/-- A float with an exponent and no point. -/
theorem number_exponent (hwhole : ∀ c ∈ whole, c.isDigit = true) (hafter : Stops Char.isDigit after)
    (hpoint : after.head? ≠ some '.') (h : exponentLength after ≠ 0) (start : Nat) :
    number start (whole ++ after) =
      ⟨some (floatToken whole [] (after.take (exponentLength after))),
        whole.length + exponentLength after - 1, []⟩ := by
  have hlength := List.length_take_of_le (exponentLength_le after)
  have hne : (!(after.take (exponentLength after)).isEmpty) = true := by
    rw [List.isEmpty_eq_false_iff_exists_mem.mpr]
    · rfl
    · exact List.exists_mem_of_length_pos (by omega)
  simp only [number, takeWhile_run hwhole hafter, List.drop_left]
  split
  · exact absurd rfl hpoint
  · rw [if_pos hne, hlength]

/-- Digits alone, in the radix that they begin with. -/
def wholeToken (start : Nat) (whole after : List Char) : Found :=
  match whole with
  | '0' :: second :: others =>
    if isDigitOf 8 second then intToken start 8 (second :: others) whole.length after
    else intToken start 10 whole whole.length after
  | _ => intToken start 10 whole whole.length after

/-- Hexadecimal digits after their mark. -/
def IsHex (text : List Char) : Prop :=
  ∃ mark digit rest, text = mark :: digit :: rest ∧ (mark = 'x' ∨ mark = 'X') ∧
    isDigitOf 16 digit = true

theorem number_whole (hwhole : ∀ c ∈ whole, c.isDigit = true) (hafter : Stops Char.isDigit after)
    (hpoint : after.head? ≠ some '.') (hexponent : exponentLength after = 0)
    (hhex : whole = ['0'] → ¬ IsHex after) (start : Nat) :
    number start (whole ++ after) = wholeToken start whole after := by
  simp only [number, takeWhile_run hwhole hafter, List.drop_left]
  split
  · exact absurd rfl hpoint
  · rw [hexponent, List.take_zero, if_neg (by simp)]
    split
    · rename_i mark behind _
      rw [if_neg]
      · rfl
      · intro h
        rw [Bool.and_eq_true, Bool.or_eq_true, beq_iff_eq, beq_iff_eq] at h
        refine hhex rfl ?_
        cases behind with
        | nil => simp at h
        | cons digit rest =>
          refine ⟨mark, digit, rest, rfl, h.1, ?_⟩
          cases hdigit : isDigitOf 16 digit with
          | true => rfl
          | false => simp [hdigit] at h
    · rfl
    · rename_i hoctal _
      unfold wholeToken
      split
      · exact absurd rfl (hoctal _ _)
      · rfl

theorem number_hex {mark : Char} {hex : List Char} (hmark : mark = 'x' ∨ mark = 'X')
    (hhex : ∀ c ∈ hex, isDigitOf 16 c = true) (hne : hex ≠ []) (hafter : Stops (isDigitOf 16) after)
    (start : Nat) :
    number start ('0' :: mark :: (hex ++ after)) =
      intToken start 16 hex (2 + hex.length) after := by
  have hzero : ∀ c ∈ ['0'], c.isDigit = true := by simp [Char.isDigit]
  have hstop : Stops Char.isDigit (mark :: (hex ++ after)) := by
    intro c hc
    cases hc
    rcases hmark with rfl | rfl <;> rfl
  have hexponent : exponentLength (mark :: (hex ++ after)) = 0 := by
    rw [exponentLength_cons]
    rcases hmark with rfl | rfl <;> rfl
  show number start (['0'] ++ mark :: (hex ++ after)) = _
  simp only [number, takeWhile_run hzero hstop, List.drop_left, hexponent, List.take_zero]
  rcases hmark with rfl | rfl <;> simp [takeWhile_run hhex hafter, hne]

theorem same_intToken (start start' radix length : Nat) (digits after after' : List Char) :
    (intToken start' radix digits length after').Same (intToken start radix digits length after) :=
  ⟨rfl, rfl⟩

theorem wholeToken_extra (start : Nat) (whole after : List Char) :
    (wholeToken start whole after).extra = whole.length - 1 := by
  unfold wholeToken
  split
  · split <;> rfl
  · rfl

theorem same_wholeToken (start start' : Nat) (whole after after' : List Char) :
    (wholeToken start' whole after').Same (wholeToken start whole after) := by
  unfold wholeToken
  split
  · split <;> exact same_intToken ..
  · exact same_intToken ..

/-- A number is found again in its own characters. -/
theorem exists_number {text : List Char} (h : ¬ Stops Char.isDigit text) (start start' : Nat) :
    ∃ piece rest, text = piece ++ rest ∧ piece.length = (number start text).extra + 1 ∧
      (number start' piece).Same (number start text) := by
  obtain ⟨whole, after, rfl, hwhole, hafter⟩ := exists_run Char.isDigit text
  by_cases hpoint : after.head? = some '.'
  · obtain ⟨behind, rfl⟩ := List.head?_eq_some_iff.mp hpoint
    obtain ⟨fraction, tail, rfl, hfraction, htail⟩ := exists_run Char.isDigit behind
    have hlength := exponentLength_le tail
    rw [number_point hwhole hfraction htail]
    refine ⟨whole ++ '.' :: (fraction ++ tail.take (exponentLength tail)),
      tail.drop (exponentLength tail), by simp, by simp; omega, ?_⟩
    rw [number_point hwhole hfraction (htail.take _), exponentLength_take, List.take_take,
      Nat.min_self]
    exact ⟨rfl, rfl⟩
  have hne : whole ≠ [] := by
    rintro rfl
    exact h hafter
  have hpos := List.length_pos_iff.mpr hne
  by_cases hexponent : exponentLength after = 0
  · by_cases hhex : whole = ['0'] ∧ IsHex after
    · obtain ⟨rfl, mark, digit, rest, rfl, hmark, hdigit⟩ := hhex
      obtain ⟨hex, rest, hrest, hdigits, hstop⟩ := exists_run (isDigitOf 16) (digit :: rest)
      rw [hrest]
      have hsome : hex ≠ [] := by
        rintro rfl
        rw [List.nil_append] at hrest
        rw [← hrest] at hstop
        rw [hstop digit rfl] at hdigit
        cases hdigit
      show ∃ piece tail, '0' :: mark :: (hex ++ rest) = _ ∧ _
      rw [List.singleton_append, number_hex hmark hdigits hsome hstop]
      refine ⟨'0' :: mark :: hex, rest, rfl, by simp [intToken]; omega, ?_⟩
      have hagain := number_hex hmark hdigits hsome (stops_nil _) start'
      rw [List.append_nil] at hagain
      rw [hagain]
      exact same_intToken ..
    · rw [number_whole hwhole hafter hpoint hexponent (fun hzero => not_and.mp hhex hzero)]
      refine ⟨whole, after, rfl, by rw [wholeToken_extra]; omega, ?_⟩
      have hagain := number_whole hwhole (stops_nil _) nofun rfl (fun _ h => by simp [IsHex] at h)
        start'
      rw [List.append_nil] at hagain
      rw [hagain]
      exact same_wholeToken ..
  · have hlength := exponentLength_le after
    rw [number_exponent hwhole hafter hpoint hexponent]
    refine ⟨whole ++ after.take (exponentLength after), after.drop (exponentLength after), by simp,
      by simp; omega, ?_⟩
    have hhead : (after.take (exponentLength after)).head? = after.head? := by
      rw [List.head?_take, if_neg hexponent]
    rw [number_exponent hwhole (hafter.take _) (hhead ▸ hpoint)
      (by rwa [exponentLength_take]), exponentLength_take, List.take_take, Nat.min_self]
    exact ⟨rfl, rfl⟩

end Numbers

/-! ### Strings -/

section Strings
variable {front rest : List Char}

theorem takeWhile_take_front {p : Char → Bool} {n : Nat}
    (h : (((front ++ rest).take n).takeWhile p).length ≤ front.length) :
    (front.take n).takeWhile p = ((front ++ rest).take n).takeWhile p := by
  have hfront : front.take n = ((front ++ rest).take n).take front.length := by
    rw [List.take_take, Nat.min_comm, ← List.take_take, List.take_left]
  rw [hfront, takeWhile_take h]

theorem codePoint_extra (length : Nat) (digits : List Char) :
    (codePoint length digits).extra =
      1 + ((digits.take length).takeWhile (isDigitOf 16)).length := by
  simp only [codePoint]
  split
  · rfl
  · split <;> dsimp only <;> omega

theorem codePoint_front {length : Nat}
    (h : (codePoint length (front ++ rest)).extra ≤ 1 + front.length) :
    codePoint length front = codePoint length (front ++ rest) := by
  rw [codePoint_extra] at h
  rw [codePoint, codePoint, takeWhile_take_front (Nat.le_of_add_le_add_left h)]

theorem length_takeWhile_take_le (p : Char → Bool) (n : Nat) (text : List Char) :
    ((text.take n).takeWhile p).length ≤ text.length :=
  Nat.le_trans (List.takeWhile_prefix p).length_le (List.length_take_le' n text)

theorem escaped_extra_le (text : List Char) : (escaped text).extra ≤ text.length := by
  cases text with
  | nil => exact Nat.le.refl
  | cons c rest =>
    have hcode := fun length => length_takeWhile_take_le (isDigitOf 16) length rest
    have hoctal := length_takeWhile_take_le (isDigitOf 8) 3 (c :: rest)
    simp only [escaped, List.length_cons] at hoctal ⊢
    split
    · have := hcode 2
      split <;> dsimp only <;> omega
    split
    · split <;> exact hoctal
    split
    · have := hcode 4
      rw [codePoint_extra]
      omega
    split
    · have := hcode 8
      rw [codePoint_extra]
      omega
    · split
      · exact Nat.le_add_left ..
      · split <;> exact Nat.le_add_left ..

/-- Only at the end of the line or of the text is there nothing behind a backslash. -/
theorem escaped_of_extra_eq_zero {text : List Char} (h : (escaped text).extra = 0) :
    escaped text = ⟨[], 0, some 1⟩ := by
  cases text with
  | nil => rfl
  | cons c rest =>
    simp only [escaped] at h ⊢
    split at h
    · split at h
      · exact absurd h Nat.one_ne_zero
      · dsimp only at h
        omega
    rename_i hx
    rw [if_neg hx]
    split at h
    · rename_i hoctal
      rw [List.take_succ_cons, List.takeWhile_cons_of_pos hoctal] at h
      split at h <;> exact absurd h (Nat.succ_ne_zero _)
    rename_i hoctal
    rw [if_neg hoctal]
    split at h
    · rw [codePoint_extra] at h
      omega
    rename_i hu
    rw [if_neg hu]
    split at h
    · rw [codePoint_extra] at h
      omega
    rename_i hlong
    rw [if_neg hlong]
    split at h
    · exact absurd h Nat.one_ne_zero
    · split at h
      · rename_i hline
        rw [if_pos hline]
      · exact absurd h Nat.one_ne_zero

/-- What follows an escape makes no difference to it. -/
theorem escaped_front (h : (escaped (front ++ rest)).extra ≤ front.length) :
    escaped front = escaped (front ++ rest) := by
  cases front with
  | nil => exact (escaped_of_extra_eq_zero (Nat.le_zero.mp h)).symm
  | cons c front =>
    rw [List.cons_append] at h ⊢
    simp only [escaped, List.length_cons] at h ⊢
    split
    · rename_i hx
      rw [if_pos hx] at h
      rw [takeWhile_take_front]
      split at h
      · rename_i hempty
        rw [List.isEmpty_iff.mp hempty]
        exact Nat.zero_le _
      · dsimp only at h
        omega
    rename_i hx
    rw [if_neg hx] at h
    split
    · rename_i hoctal
      rw [if_pos hoctal] at h
      rw [← List.cons_append, takeWhile_take_front]
      split at h <;> exact h
    rename_i hoctal
    rw [if_neg hoctal] at h
    split
    · rename_i hu
      rw [if_pos hu, Nat.add_comm] at h
      exact codePoint_front h
    rename_i hu
    rw [if_neg hu] at h
    split
    · rename_i hlong
      rw [if_pos hlong, Nat.add_comm] at h
      exact codePoint_front h
    · rfl

/-- The faults of an escape at this position. -/
def Escaped.faults (e : Escaped) (pos : Nat) : List Fault :=
  e.faulty.toList.map fun length => .invalidEscape ⟨pos, pos + length⟩

theorem stringBody_escaped {quote : Char} (hquote : '\\' ≠ quote) (start pos : Nat)
    (rest : List Char) :
    stringBody start quote pos ('\\' :: rest) =
      (stringBody start quote (pos + 1 + byteLength (rest.take (escaped rest).extra))
        (rest.drop (escaped rest).extra)).cons (escaped rest).bytes (1 + (escaped rest).extra)
        ((escaped rest).faults pos) := by
  rw [stringBody, if_neg hquote, if_neg (by decide), if_pos rfl, Escaped.faults]
  dsimp only
  cases (escaped rest).faulty <;> rfl

/-- A character that stands for itself in a string. -/
structure IsPlainIn (quote c : Char) : Prop where
  quote : c ≠ quote
  line : c ≠ '\n'
  slash : c ≠ '\\'
  zero : c ≠ Char.ofNat 0

theorem stringBody_plain {quote c : Char} (hc : IsPlainIn quote c) (start pos : Nat)
    (rest : List Char) :
    stringBody start quote pos (c :: rest) =
      (stringBody start quote (pos + c.utf8Size) rest).cons (Utf8.encodeChar c) 1 [] := by
  rw [stringBody, if_neg hc.quote, if_neg hc.line, if_neg hc.slash, if_neg hc.zero]

/-- A string is found again in its own characters. -/
theorem exists_body (start start' : Nat) (quote : Char) (pos pos' : Nat) (text : List Char) :
    ∃ body rest, text = body ++ rest ∧ body.length = (stringBody start quote pos text).length ∧
      (stringBody start' quote pos' body).bytes = (stringBody start quote pos text).bytes ∧
      (stringBody start' quote pos' body).length = (stringBody start quote pos text).length := by
  fun_induction stringBody start quote pos text generalizing pos' with
  | case1 => exact ⟨[], [], rfl, rfl, by rw [stringBody], by rw [stringBody]⟩
  | case2 pos rest =>
    refine ⟨[quote], rest, rfl, rfl, ?_⟩
    rw [stringBody, if_pos rfl]
    exact ⟨rfl, rfl⟩
  | case3 pos rest hquote =>
    refine ⟨['\n'], rest, rfl, rfl, ?_⟩
    rw [stringBody, if_neg hquote, if_pos rfl]
    exact ⟨rfl, rfl⟩
  | case4 pos rest e faults hquote hline ih =>
    obtain ⟨body, after, hafter, hlength, hagain⟩ := ih (pos' + 1 + byteLength (rest.take e.extra))
    have hle : e.extra ≤ rest.length := escaped_extra_le rest
    have hfront : (rest.take e.extra).length = e.extra := List.length_take_of_le hle
    have hrest : rest = rest.take e.extra ++ body ++ after := by
      rw [List.append_assoc, ← hafter, List.take_append_drop]
    -- The escape is read from its own characters, and then those of the rest follow.
    have hescaped : escaped (rest.take e.extra ++ body) = e := by
      have heq : escaped (rest.take e.extra ++ body ++ after) = e := by rw [← hrest]
      refine (escaped_front ?_).trans heq
      rw [heq, List.length_append, hfront]
      exact Nat.le_add_right ..
    refine ⟨'\\' :: (rest.take e.extra ++ body), after, by rw [List.cons_append, ← hrest], ?_, ?_⟩
    · simp only [List.length_cons, List.length_append, hfront, hlength, Body.cons]
      omega
    · rw [stringBody_escaped hquote, hescaped, List.drop_left' hfront, List.take_left' hfront]
      simp [Body.cons, hagain]
  | case5 pos rest hquote hline hslash ih =>
    obtain ⟨body, after, rfl, hlength, hagain⟩ := ih (pos' + 1)
    refine ⟨_ :: body, after, rfl, ?_, ?_⟩
    · simp [Body.cons, hlength, Nat.add_comm]
    · rw [stringBody, if_neg hquote, if_neg hline, if_neg hslash, if_pos rfl]
      simp [Body.cons, hagain]
  | case6 pos c rest hquote hline hslash hzero ih =>
    obtain ⟨body, after, rfl, hlength, hagain⟩ := ih (pos' + c.utf8Size)
    refine ⟨c :: body, after, rfl, ?_, ?_⟩
    · simp [Body.cons, hlength, Nat.add_comm]
    · rw [stringBody_plain ⟨hquote, hline, hslash, hzero⟩]
      simp [Body.cons, hagain]

end Strings

/-! ### Comments -/

theorem exists_comment {text : List Char} {length : Nat} (h : commentLength? text = some length) :
    ∃ body rest, text = body ++ ['*', '/'] ++ rest ∧ body.length = length ∧
      commentLength? (body ++ ['*', '/']) = some length := by
  fun_induction commentLength? text generalizing length with
  | case1 => cases h
  | case2 rest =>
    cases h
    exact ⟨[], rest, rfl, rfl, rfl⟩
  | case3 c rest hend ih =>
    obtain ⟨shorter, hshorter, rfl⟩ := Option.map_eq_some_iff.mp h
    obtain ⟨body, after, rfl, hlength, hagain⟩ := ih hshorter
    refine ⟨c :: body, after, rfl, by rw [List.length_cons, hlength], ?_⟩
    rw [List.cons_append, commentLength?, hagain]
    · rfl
    · intro more hc hbody
      exact hend (more ++ after) hc (by rw [hbody, List.cons_append])

theorem lineComment_run {text rest : List Char} (htext : ∀ c ∈ text, (c != '\n') = true)
    (hrest : Stops (· != '\n') rest) :
    lineComment (text ++ rest) =
      ⟨some (.lineComment (String.ofList ((text.reverse.dropWhile (· == '\r')).reverse))),
        1 + text.length, []⟩ := by
  rw [lineComment, takeWhile_run htext hrest]

theorem exists_blockComment (start start' : Nat) (text : List Char) :
    ∃ body rest, text = body ++ rest ∧ 1 + body.length = (blockComment start text).extra ∧
      (blockComment start' body).Same (blockComment start text) := by
  cases h : commentLength? text with
  | none =>
    refine ⟨text, [], (List.append_nil text).symm, ?_, ?_⟩
    · simp [blockComment, h]
    · simp only [blockComment, h]
      exact ⟨rfl, rfl⟩
  | some length =>
    obtain ⟨body, rest, rfl, hlength, hagain⟩ := exists_comment h
    have hfront : ∀ more, (body ++ ['*', '/'] ++ more).take length = body := by
      intro more
      rw [List.append_assoc, List.take_left' hlength]
    have hself := hfront []
    rw [List.append_nil] at hself
    refine ⟨body ++ ['*', '/'], rest, rfl, ?_, ?_⟩
    · simp only [blockComment, h, List.length_append, hlength, List.length_cons, List.length_nil]
      omega
    · simp only [blockComment, h, hagain, hfront, hself]
      exact ⟨rfl, rfl⟩

/-! ### All tokens -/

section Tokens
variable {start : Nat} {c : Char} {rest : List Char}

theorem token_letter (h : isLetter c = true) : token start c rest = word c rest := by
  unfold token
  rw [if_pos h]

theorem isLetter_of_isDigit (h : c.isDigit = true) : isLetter c = false := by
  by_cases hunderscore : c = '_'
  · rw [hunderscore] at h
    exact absurd h (by decide)
  · unfold Char.isDigit at h
    unfold isLetter Char.isAlpha Char.isUpper Char.isLower
    grind

theorem token_digit (h : c.isDigit = true) : token start c rest = number start (c :: rest) := by
  unfold token
  rw [if_neg (by simp [isLetter_of_isDigit h]), if_pos h]

/-- A float that begins with its point. -/
theorem token_point {fraction tail : List Char} (hfraction : ∀ d ∈ fraction, d.isDigit = true)
    (hne : fraction ≠ []) (htail : Stops Char.isDigit tail) :
    token start '.' (fraction ++ tail) =
      ⟨some (floatToken [] fraction (tail.take (exponentLength tail))),
        fraction.length + exponentLength tail, []⟩ := by
  have hdigit : (fraction ++ tail).head?.any Char.isDigit = true := by
    cases fraction with
    | nil => exact absurd rfl hne
    | cons d _ => exact hfraction d List.mem_cons_self
  have hnumber := number_point (List.forall_mem_nil _) hfraction htail start
  rw [List.nil_append, List.length_nil, Nat.zero_add] at hnumber
  unfold token
  rw [if_neg (by decide), if_neg (by decide), if_pos (by rw [hdigit]; rfl), hnumber]

theorem token_quote (h : c = '"' ∨ c = '\'') : token start c rest = string start c rest := by
  rcases h with rfl | rfl <;> rfl

theorem token_lineComment : token start '/' ('/' :: rest) = lineComment rest := rfl

theorem token_blockComment : token start '/' ('*' :: rest) = blockComment start rest := rfl

/-- What a character is by itself. -/
def single (start : Nat) (c : Char) : Found :=
  match Punct.ofChar? c with
  | some sign => ⟨some (.punct sign), 0, []⟩
  | none => invalid start c

/-- A character that begins no longer lexeme. -/
theorem token_single (hletter : isLetter c = false) (hdigit : c.isDigit = false)
    (hpoint : ¬(c = '.' ∧ rest.head?.any Char.isDigit = true)) (hquote : ¬(c = '"' ∨ c = '\''))
    (hcomment : c = '/' → rest.head? ≠ some '/' ∧ rest.head? ≠ some '*') :
    token start c rest = single start c := by
  unfold token
  rw [if_neg (by simp [hletter]), if_neg (by simp [hdigit]), if_neg (by simpa using hpoint),
    if_neg (by simpa using hquote)]
  split
  · rename_i hslash
    obtain rfl : c = '/' := beq_iff_eq.mp hslash
    obtain ⟨hline, hblock⟩ := hcomment rfl
    split
    · exact absurd rfl hline
    · exact absurd rfl hblock
    · rfl
  · rfl

end Tokens

/-- **A lexeme is found again in its own characters**, of which there are as many as it takes. -/
theorem exists_token (start start' : Nat) (c : Char) (rest : List Char) :
    ∃ body after, rest = body ++ after ∧ body.length = (token start c rest).extra ∧
      (token start' c body).Same (token start c rest) := by
  by_cases hletter : isLetter c = true
  · obtain ⟨others, after, rfl, hothers, hafter⟩ := exists_run isWordChar rest
    have hself := word_run (c := c) hothers (stops_nil _)
    rw [List.append_nil] at hself
    refine ⟨others, after, rfl, ?_⟩
    rw [token_letter hletter, token_letter hletter, word_run hothers hafter, hself]
    exact ⟨rfl, rfl, rfl⟩
  by_cases hdigit : c.isDigit = true
  · have hfirst : ¬ Stops Char.isDigit (c :: rest) := by
      intro hstops
      rw [hstops c rfl] at hdigit
      cases hdigit
    obtain ⟨piece, after, hpiece, hlength, hsame⟩ := exists_number hfirst start start'
    cases piece with
    | nil => simp at hlength
    | cons d body =>
      obtain ⟨rfl, rfl⟩ := List.cons.inj hpiece
      refine ⟨body, after, rfl, ?_⟩
      rw [token_digit hdigit, token_digit hdigit]
      exact ⟨Nat.succ.inj hlength, hsame⟩
  by_cases hpoint : c = '.' ∧ rest.head?.any Char.isDigit = true
  · obtain ⟨rfl, hdigits⟩ := hpoint
    obtain ⟨fraction, tail, rfl, hfraction, htail⟩ := exists_run Char.isDigit rest
    have hlength := exponentLength_le tail
    have hne : fraction ≠ [] := by
      rintro rfl
      cases tail with
      | nil => simp at hdigits
      | cons d _ => simp [htail d rfl] at hdigits
    refine ⟨fraction ++ tail.take (exponentLength tail), tail.drop (exponentLength tail),
      by simp, ?_⟩
    rw [token_point hfraction hne htail, token_point hfraction hne (htail.take _),
      exponentLength_take, List.take_take, Nat.min_self]
    exact ⟨by simp; omega, rfl, rfl⟩
  by_cases hquote : c = '"' ∨ c = '\''
  · obtain ⟨body, after, hrest, hlength, hbytes, hagain⟩ :=
      exists_body start start' c (start + 1) (start' + 1) rest
    refine ⟨body, after, hrest, ?_⟩
    rw [token_quote hquote, token_quote hquote]
    exact ⟨hlength, by simp only [string, hbytes], hagain⟩
  by_cases hline : c = '/' ∧ rest.head? = some '/'
  · obtain ⟨rfl, hhead⟩ := hline
    obtain ⟨behind, rfl⟩ := List.head?_eq_some_iff.mp hhead
    obtain ⟨text, after, rfl, htext, hafter⟩ := exists_run (· != '\n') behind
    have hself := lineComment_run htext (stops_nil _)
    rw [List.append_nil] at hself
    refine ⟨'/' :: text, after, rfl, ?_⟩
    rw [token_lineComment, token_lineComment, lineComment_run htext hafter, hself]
    exact ⟨Nat.add_comm .., rfl, rfl⟩
  by_cases hblock : c = '/' ∧ rest.head? = some '*'
  · obtain ⟨rfl, hhead⟩ := hblock
    obtain ⟨behind, rfl⟩ := List.head?_eq_some_iff.mp hhead
    obtain ⟨body, after, rfl, hlength, hsame⟩ := exists_blockComment start start' behind
    refine ⟨'*' :: body, after, rfl, ?_⟩
    rw [token_blockComment, token_blockComment]
    exact ⟨by rw [← hlength, List.length_cons, Nat.add_comm], hsame⟩
  · refine ⟨[], rest, rfl, ?_⟩
    rw [token_single (by simpa using hletter) (by simpa using hdigit) hpoint hquote
        fun hslash => ⟨not_and.mp hline hslash, not_and.mp hblock hslash⟩,
      token_single (by simpa using hletter) (by simpa using hdigit) (by simp) hquote (by simp)]
    unfold single
    cases Punct.ofChar? c <;> exact ⟨rfl, rfl, rfl⟩

end Protobuf.Lexer

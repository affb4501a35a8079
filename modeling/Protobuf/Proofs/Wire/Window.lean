import Protobuf.Proofs.Wire.Locality

/-! Payloads behind their length, as windows.

A payload that announces its length is read without cutting it out: each step sees all bytes that
are left, and only at the end it is checked that exactly the announced number was used. `Run` is the
other way to read it: the window alone, step by step until it is empty. For steps that are local and
read something (`Advances`) the two agree (`mergeDelimited_window`), whatever follows the window. -/
namespace Protobuf.Delimited
variable {σ : Type} {step : σ → Bytes → Merged σ}

/-! ### Runs -/

/-- Steps that use up all of the bytes lead from one state to the other. -/
inductive Run (step : σ → Bytes → Merged σ) : σ → Bytes → σ → Prop where
  | nil {s : σ} : Run step s [] s
  | next {s s₁ s' : σ} {bytes rest : Bytes} : bytes ≠ [] → step s bytes = ⟨s₁, .ok rest⟩ →
      Run step s₁ rest s' → Run step s bytes s'

/-- What a repeated step owes: it is local, and it reads something. -/
structure Advances (step : σ → Bytes → Merged σ) : Prop where
  isLocal : ∀ s, Local (Merged.takes (step s))
  shortens : ∀ {s s' : σ} {bytes rest : Bytes}, step s bytes = ⟨s', .ok rest⟩ →
    rest.length < bytes.length

theorem Run.single {s s' : σ} {bytes : Bytes} (hne : bytes ≠ [])
    (h : step s bytes = ⟨s', .ok []⟩) : Run step s bytes s' :=
  .next hne h .nil

theorem Run.append (ha : Advances step) {s s₁ s' : σ} {front back : Bytes}
    (hfront : Run step s front s₁) (hback : Run step s₁ back s') :
    Run step s (front ++ back) s' := by
  induction hfront with
  | nil => exact hback
  | next hne hstep _ ih =>
    exact .next (by simp [hne]) ((ha.isLocal _).extend hstep back) (ih hback)

/-- What every step keeps, of the state and the bytes that are left, holds at the end of a run. -/
theorem Run.invariant {keeps : σ → Bytes → Prop}
    (hstep : ∀ {s s' : σ} {bytes rest : Bytes}, step s bytes = ⟨s', .ok rest⟩ → keeps s bytes →
      keeps s' rest)
    {s s' : σ} {bytes : Bytes} (h : Run step s bytes s') (hs : keeps s bytes) : keeps s' [] := by
  induction h with
  | nil => exact hs
  | next _ hnext _ ih => exact ih (hstep hnext hs)

/-! ### Repeating a step -/

theorem lt_length_append {limit : Nat} {bytes tail : Bytes} (hne : bytes ≠ [])
    (h : limit ≤ tail.length) : limit < (bytes ++ tail).length := by
  have := List.length_pos_iff.mpr hne
  rw [List.length_append]
  omega

theorem mergeWhile_stop {limit : Nat} {bytes : Bytes} (h : bytes.length ≤ limit) (s : σ) :
    mergeWhile step limit s bytes = ⟨s, .ok bytes⟩ := by
  rw [mergeWhile, if_neg (by omega)]

theorem mergeWhile_ok (ha : Advances step) {limit : Nat} {s s₁ : σ} {bytes rest : Bytes}
    (hlt : limit < bytes.length) (h : step s bytes = ⟨s₁, .ok rest⟩) :
    mergeWhile step limit s bytes = mergeWhile step limit s₁ rest := by
  rw [mergeWhile, if_pos hlt, h]
  show (if rest.length < bytes.length then _ else _) = _
  rw [if_pos (ha.shortens h)]

theorem mergeWhile_error {limit : Nat} {s : σ} {bytes : Bytes} {e : Malformed}
    (hlt : limit < bytes.length) (h : (step s bytes).rest = .error e) :
    (mergeWhile step limit s bytes).rest = .error e := by
  rw [mergeWhile, if_pos hlt]
  cases hstep : step s bytes with
  | mk s₁ r =>
    rw [hstep] at h
    have hr : r = .error e := h
    rw [hr]

/-- A loop that ends well began with a step that did. -/
theorem exists_of_mergeWhile_ok (ha : Advances step) {limit : Nat} {s s' : σ} {bytes rest : Bytes}
    (hlt : limit < bytes.length) (h : mergeWhile step limit s bytes = ⟨s', .ok rest⟩) :
    ∃ s₁ mid, step s bytes = ⟨s₁, .ok mid⟩ ∧ mergeWhile step limit s₁ mid = ⟨s', .ok rest⟩ := by
  cases hstep : step s bytes with
  | mk s₁ r =>
    cases r with
    | error e =>
      have herror := mergeWhile_error hlt (by rw [hstep] : (step s bytes).rest = .error e)
      rw [h] at herror
      cases herror
    | ok mid =>
      rw [mergeWhile_ok ha hlt hstep] at h
      exact ⟨s₁, mid, rfl, h⟩

/-- A loop that ends well ends in front of bytes that were there. -/
theorem mergeWhile_isSuffix (ha : Advances step) {limit : Nat} {s s' : σ} {bytes rest : Bytes}
    (h : mergeWhile step limit s bytes = ⟨s', .ok rest⟩) : rest <:+ bytes := by
  induction hn : bytes.length using Nat.strongRecOn generalizing s bytes with
  | ind n ih =>
    by_cases hlt : limit < bytes.length
    · obtain ⟨s₁, mid, hstep, hmid⟩ := exists_of_mergeWhile_ok ha hlt h
      have hrest := ih mid.length (hn ▸ ha.shortens hstep) hmid rfl
      exact hrest.trans ((ha.isLocal s).isSuffix hstep)
    · rw [mergeWhile_stop (by omega)] at h
      cases h
      exact List.suffix_refl _

/-- A loop that ends well has used up all bytes down to the limit. -/
theorem mergeWhile_length_le (ha : Advances step) {limit : Nat} {s s' : σ} {bytes rest : Bytes}
    (h : mergeWhile step limit s bytes = ⟨s', .ok rest⟩) : rest.length ≤ limit := by
  induction hn : bytes.length using Nat.strongRecOn generalizing s bytes with
  | ind n ih =>
    by_cases hlt : limit < bytes.length
    · obtain ⟨s₁, mid, hstep, hmid⟩ := exists_of_mergeWhile_ok ha hlt h
      exact ih mid.length (hn ▸ ha.shortens hstep) hmid rfl
    · rw [mergeWhile_stop (by omega)] at h
      cases h
      omega

/-- A run through a window goes on behind it. -/
theorem Run.mergeWhile_append (ha : Advances step) {s s₁ : σ} {window : Bytes}
    (h : Run step s window s₁) {limit : Nat} {tail : Bytes} (hlimit : limit ≤ tail.length) :
    mergeWhile step limit s (window ++ tail) = mergeWhile step limit s₁ tail := by
  induction h with
  | nil => rfl
  | next hne hstep _ ih =>
    rw [mergeWhile_ok ha (lt_length_append hne hlimit) ((ha.isLocal _).extend hstep tail), ih]

/-- **The loop that sees what follows the window succeeds exactly where the window alone can be
read**, and then it stops at the window's end. -/
theorem mergeWhile_window (ha : Advances step) {s s' : σ} {window tail : Bytes} :
    mergeWhile step tail.length s (window ++ tail) = ⟨s', .ok tail⟩ ↔ Run step s window s' := by
  constructor
  · intro h
    induction hn : window.length using Nat.strongRecOn generalizing s window with
    | ind n ih =>
      by_cases hne : window = []
      · subst hne
        rw [List.nil_append, mergeWhile_stop (Nat.le_refl _)] at h
        cases h
        exact .nil
      · have hlt := lt_length_append hne (Nat.le_refl tail.length)
        obtain ⟨s₁, rest, hstep, hrest⟩ := exists_of_mergeWhile_ok ha hlt h
        -- A step past the end of the window would leave less than the tail, for good.
        have hkept := (mergeWhile_isSuffix ha hrest).length_le
        obtain ⟨left, rfl, hleft⟩ := (ha.isLocal s).cut hstep hkept
        exact .next hne hleft (ih left.length (hn ▸ ha.shortens hleft) hrest rfl)
  · intro h
    rw [h.mergeWhile_append ha (Nat.le_refl _), mergeWhile_stop (Nat.le_refl _)]

theorem mergeWhile_zero (ha : Advances step) {s s' : σ} {bytes : Bytes} :
    mergeWhile step 0 s bytes = ⟨s', .ok []⟩ ↔ Run step s bytes s' := by
  have h : mergeWhile step ([] : Bytes).length s (bytes ++ []) = ⟨s', .ok []⟩ ↔ _ :=
    mergeWhile_window ha
  rwa [List.append_nil] at h

/-- A loop without a limit ends well if all bytes are one run, and only then. -/
theorem mergeWhile_zero_iff (ha : Advances step) {s s' : σ} {bytes rest : Bytes} :
    mergeWhile step 0 s bytes = ⟨s', .ok rest⟩ ↔ rest = [] ∧ Run step s bytes s' := by
  constructor
  · intro h
    have hnil : rest = [] := List.length_eq_zero_iff.mp (Nat.le_zero.mp (mergeWhile_length_le ha h))
    subst hnil
    exact ⟨rfl, (mergeWhile_zero ha).mp h⟩
  · rintro ⟨rfl, hrun⟩
    exact (mergeWhile_zero ha).mpr hrun

/-! ### Payloads behind their length -/

theorem mergeDelimited_eq_ok_iff {s s' : σ} {bytes left : Bytes} :
    mergeDelimited step s bytes = ⟨s', .ok left⟩ ↔
      ∃ len rest, decodeLen bytes = .ok (len, rest) ∧
        mergeWhile step (rest.length - len) s rest = ⟨s', .ok left⟩ ∧
        left.length = rest.length - len := by
  unfold mergeDelimited
  cases hlen : decodeLen bytes with
  | error e => simp
  | ok found =>
    obtain ⟨len, rest⟩ := found
    simp only [Except.ok.injEq, Prod.mk.injEq, and_assoc, exists_and_left, exists_eq_left']
    cases hloop : mergeWhile step (rest.length - len) s rest with
    | mk s₁ r =>
      cases r with
      | error e => simp
      | ok mid =>
        by_cases hend : mid.length = rest.length - len
        · simp only [hend, if_true, Merged.mk.injEq, Except.ok.injEq]
          constructor
          · rintro ⟨rfl, rfl⟩
            exact ⟨⟨rfl, rfl⟩, hend⟩
          · rintro ⟨h, _⟩
            exact h
        · simp only [hend, if_false, Merged.mk.injEq, reduceCtorEq, and_false, Except.ok.injEq,
            false_iff]
          rintro ⟨⟨_, rfl⟩, h⟩
          exact hend h

theorem decodeLen_window {p window : Bytes} (tail : Bytes)
    (hp : Varint.decode p = .ok (window.length, [])) :
    decodeLen (p ++ window ++ tail) = .ok (window.length, window ++ tail) := by
  rw [List.append_assoc]
  have hvarint := Varint.decode_local.extend hp (window ++ tail)
  exact decodeLen_eq_ok_iff.mpr ⟨hvarint, by rw [List.length_append]; omega⟩

theorem length_window (window tail : Bytes) :
    (window ++ tail).length - window.length = tail.length := by
  rw [List.length_append, Nat.add_sub_cancel_left]

/-- **Behind any length that announces it, a window is merged exactly as it is read alone**, and
what follows it is left. -/
theorem mergeDelimited_window (ha : Advances step) {p window tail left : Bytes} {s s' : σ}
    (hp : Varint.decode p = .ok (window.length, [])) :
    mergeDelimited step s (p ++ window ++ tail) = ⟨s', .ok left⟩ ↔
      left = tail ∧ Run step s window s' := by
  have hlen := decodeLen_window tail hp
  have hlimit := length_window window tail
  rw [mergeDelimited_eq_ok_iff]
  constructor
  · rintro ⟨len, rest, hlen', hloop, hleft⟩
    rw [hlen] at hlen'
    cases hlen'
    rw [hlimit] at hloop hleft
    have hsuffix : left = tail :=
      (List.suffix_of_suffix_length_le (mergeWhile_isSuffix ha hloop)
        (List.suffix_append window tail) (Nat.le_of_eq hleft)).eq_of_length hleft
    subst hsuffix
    exact ⟨rfl, (mergeWhile_window ha).mp hloop⟩
  · rintro ⟨rfl, hrun⟩
    refine ⟨window.length, window ++ left, hlen, ?_, hlimit.symm⟩
    rw [hlimit]
    exact (mergeWhile_window ha).mpr hrun

/-- Every payload that is merged is such a window. -/
theorem exists_window_of_mergeDelimited (ha : Advances step) {s s' : σ} {bytes left : Bytes}
    (h : mergeDelimited step s bytes = ⟨s', .ok left⟩) :
    ∃ p window, bytes = p ++ window ++ left ∧ Varint.decode p = .ok (window.length, []) ∧
      p ≠ [] := by
  obtain ⟨len, rest, hlen, hloop, hleft⟩ := mergeDelimited_eq_ok_iff.mp h
  obtain ⟨hvarint, hle⟩ := decodeLen_eq_ok_iff.mp hlen
  obtain ⟨window, rfl⟩ := mergeWhile_isSuffix ha hloop
  obtain ⟨p, rfl, hp⟩ := Varint.decode_local hvarint
  have hwindow : window.length = len := by
    rw [List.length_append] at hle hleft
    omega
  have hp : Varint.decode p = .ok (window.length, []) := by
    rw [hwindow, ← List.append_nil p]
    exact hp []
  refine ⟨p, window, (List.append_assoc p window left).symm, hp, ?_⟩
  rintro rfl
  cases hp

theorem mergeDelimited_local (ha : Advances step) (s : σ) :
    Local (Merged.takes (mergeDelimited step s)) := by
  intro bytes s' left h
  obtain ⟨p, window, rfl, hp, _⟩ := exists_window_of_mergeDelimited ha h
  have hrun := ((mergeDelimited_window ha hp).mp h).2
  exact ⟨p ++ window, rfl, fun tail => (mergeDelimited_window ha hp).mpr ⟨rfl, hrun⟩⟩

/-! ### Failures that a window forces -/

/-- Reading the bytes comes to a step that fails, whatever follows them. -/
def Stops (step : σ → Bytes → Merged σ) (s : σ) (bytes : Bytes) (e : Malformed) : Prop :=
  ∃ s₁ front back, bytes = front ++ back ∧ Run step s front s₁ ∧ back ≠ [] ∧
    ∀ tail, (step s₁ (back ++ tail)).rest = .error e

theorem Stops.single {s : σ} {bytes : Bytes} {e : Malformed} (hne : bytes ≠ [])
    (h : ∀ tail, (step s (bytes ++ tail)).rest = .error e) : Stops step s bytes e :=
  ⟨s, [], bytes, rfl, .nil, hne, h⟩

theorem Stops.append {s : σ} {bytes : Bytes} {e : Malformed} (h : Stops step s bytes e)
    (more : Bytes) : Stops step s (bytes ++ more) e := by
  obtain ⟨s₁, front, back, rfl, hrun, hne, hfail⟩ := h
  refine ⟨s₁, front, back ++ more, List.append_assoc front back more, hrun, by simp [hne], ?_⟩
  intro tail
  rw [List.append_assoc]
  exact hfail (more ++ tail)

theorem Stops.after (ha : Advances step) {s s₁ : σ} {front back : Bytes} {e : Malformed}
    (hfront : Run step s front s₁) (h : Stops step s₁ back e) : Stops step s (front ++ back) e := by
  obtain ⟨s₂, mid, last, rfl, hrun, hne, hfail⟩ := h
  exact ⟨s₂, front ++ mid, last, (List.append_assoc front mid last).symm, hfront.append ha hrun,
    hne, hfail⟩

theorem Stops.mergeWhile_append (ha : Advances step) {s : σ} {bytes : Bytes} {e : Malformed}
    (h : Stops step s bytes e) {limit : Nat} {tail : Bytes} (hlimit : limit ≤ tail.length) :
    (mergeWhile step limit s (bytes ++ tail)).rest = .error e := by
  obtain ⟨s₁, front, back, rfl, hrun, hne, hfail⟩ := h
  have hlt := lt_length_append hne hlimit
  rw [List.append_assoc, hrun.mergeWhile_append ha (Nat.le_of_lt hlt)]
  exact mergeWhile_error hlt (hfail tail)

theorem Stops.mergeDelimited_append (ha : Advances step) {s : σ} {p window : Bytes}
    {e : Malformed} (h : Stops step s window e) (hp : Varint.decode p = .ok (window.length, []))
    (tail : Bytes) : (mergeDelimited step s (p ++ window ++ tail)).rest = .error e := by
  have hlen := decodeLen_window tail hp
  have hlimit := length_window window tail
  have hloop := h.mergeWhile_append ha (Nat.le_refl tail.length)
  rw [mergeDelimited, hlen]
  simp only [hlimit]
  cases hm : mergeWhile step tail.length s (window ++ tail) with
  | mk s₁ r =>
    rw [hm] at hloop
    have hr : r = .error e := hloop
    rw [hr]

end Protobuf.Delimited

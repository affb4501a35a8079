import Mathlib.Computability.Language
import Mathlib.Order.CompletePartialOrder
import Protobuf.Proofs.Source.Cursors

/-! What parsers read, said once for each way of building them.

`Reads` ties a parser to languages: wherever it is, the parser either passes over a phrase without a
fault of its own, or reports one. So a run that adds no faults has read a phrase. Sequences and
loops keep this. In a loop each round that goes on must use up a word; since that is so when it
reads a phrase that is not empty, the bound on the rounds is never reached without a fault. -/
namespace Protobuf.Parser
open scoped Computability

variable {α β σ : Type}

/-- The tokens of words. -/
def tokens (ws : List Word) : List Token :=
  ws.map (·.token)

@[simp] theorem tokens_nil : tokens [] = [] := rfl

@[simp] theorem tokens_append (a b : List Word) : tokens (a ++ b) = tokens a ++ tokens b :=
  List.map_append

theorem tokens_eq_append_iff {ws : List Word} {a b : List Token} :
    tokens ws = a ++ b ↔ ∃ u v, ws = u ++ v ∧ tokens u = a ∧ tokens v = b :=
  List.map_eq_append_iff

theorem append_mem_kstar {again : Language Token} {u v : List Token} (hu : u ∈ again)
    (hv : v ∈ again∗) : u ++ v ∈ again∗ := by
  have hle : again * again∗ ≤ again∗ := mul_kstar_le_kstar
  exact hle (Language.append_mem_mul hu hv)

theorem mem_kstar_mul {last : Language Token} {v : List Token} (again : Language Token)
    (hv : v ∈ last) : v ∈ again∗ * last :=
  Language.append_mem_mul (Language.nil_mem_kstar again) hv

theorem append_mem_kstar_mul {again last : Language Token} {u v : List Token} (hu : u ∈ again)
    (hv : v ∈ again∗ * last) : u ++ v ∈ again∗ * last := by
  obtain ⟨a, ha, b, hb, rfl⟩ := Language.mem_mul.mp hv
  rw [← List.append_assoc]
  exact Language.append_mem_mul (append_mem_kstar hu ha) hb

theorem head?_of_mem_token_mul {t : Token} {rest : Language Token} {w : List Token}
    (h : w ∈ {[t]} * rest) : w.head? = some t := by
  obtain ⟨u, rfl, v, _, rfl⟩ := Language.mem_mul.mp h
  rfl

theorem nil_notMem_token_mul (t : Token) (rest : Language Token) : [] ∉ {[t]} * rest := by
  intro h
  cases head?_of_mem_token_mul h

theorem nil_notMem_mul_token (t : Token) (front : Language Token) : [] ∉ front * {[t]} := by
  intro h
  obtain ⟨u, _, v, rfl, huv⟩ := Language.mem_mul.mp h
  simp at huv

/-- The empty phrase, if the condition holds. -/
def provided (condition : Prop) : Language Token :=
  {w | w ∈ (1 : Language Token) ∧ condition}

theorem mem_mul_provided_iff {phrases : Language Token} {condition : Prop} {w : List Token} :
    w ∈ phrases * provided condition ↔ w ∈ phrases ∧ condition := by
  constructor
  · intro h
    obtain ⟨u, hu, v, ⟨rfl, hcondition⟩, rfl⟩ := Language.mem_mul.mp h
    rw [List.append_nil]
    exact ⟨hu, hcondition⟩
  · intro h
    rw [← List.append_nil w]
    exact Language.append_mem_mul h.1 ⟨rfl, h.2⟩

/-! ### Runs -/

/-- From `c` to `c'` the parser passes over `used`, without a fault of its own, and gives `a`. -/
structure Passes (p : Parser α) (used : List Word) (a : α) (c c' : Cursor) : Prop where
  run : p c = (some a, c')
  rest : c.rest = used ++ c'.rest
  faults : c'.allFaults = c.allFaults

/-- The parser reports a fault: there is one more than those that are recorded or to come. -/
def Reports (p : Parser α) (c : Cursor) : Prop :=
  c.allFaults.length < (p c).2.allFaults.length

/-- The parser keeps the faults that are there. -/
def Keeps (p : Parser α) : Prop :=
  ∀ c : Cursor, c.allFaults.length ≤ (p c).2.allFaults.length

/-- At this place the parser passes over a phrase, which is in the language of the value that it
gives, or reports a fault. -/
def ReadsAt (phrases : α → Language Token) (p : Parser α) (c : Cursor) : Prop :=
  (∃ used a c', tokens used ∈ phrases a ∧ Passes p used a c c') ∨ Reports p c

/-- Wherever it is, the parser passes over a phrase or reports a fault. -/
def Reads (phrases : α → Language Token) (p : Parser α) : Prop :=
  ∀ c, ReadsAt phrases p c

/-- No condition. -/
abbrev Any (_ : α) : Prop :=
  True

/-- What a sequence does after its first parser. -/
theorem bind_run (p : Parser α) (f : α → Parser β) (c : Cursor) :
    (p >>= f) c = match p c with
      | (some a, c') => f a c'
      | (none, c') => (none, c') := rfl

instance : LawfulMonad Parser :=
  LawfulMonad.mk' Parser
    (fun p => by
      funext c
      show (p >>= fun a => pure a) c = p c
      rw [bind_run]
      cases p c with
      | mk value c' => cases value <;> rfl)
    (fun _ _ => rfl)
    (fun p f g => by
      funext c
      simp only [bind_run]
      cases p c with
      | mk value c' => cases value <;> rfl)

/-- What is done with the next word is done after it was looked at. -/
theorem peek_run (f : Option Word → Parser α) (c : Cursor) :
    (peek >>= f) c = f c.rest.head? c.look := by
  rw [← c.look_seen]
  rfl

theorem advance_run {c : Cursor} {w : Word} (h : c.seen = some w) :
    advance w c = (some (), { c with seen := none }) :=
  if_pos h

section Passing
variable {p : Parser α} {c c' c'' : Cursor} {used more : List Word} {w : Word} {a : α} {b : β}

theorem passes_pure (a : α) (c : Cursor) : Passes (pure a) [] a c c :=
  ⟨rfl, rfl, rfl⟩

theorem Passes.bind {f : α → Parser β} (hp : Passes p used a c c')
    (hf : Passes (f a) more b c' c'') : Passes (p >>= f) (used ++ more) b c c'' where
  run := by
    rw [bind_run, hp.run]
    exact hf.run
  rest := by rw [hp.rest, hf.rest, List.append_assoc]
  faults := hf.faults.trans hp.faults

theorem Passes.andPure {f : α → β} (hp : Passes p used a c c') :
    Passes (p >>= fun a => pure (f a)) used (f a) c c' := by
  have hboth : Passes (p >>= fun a => pure (f a)) (used ++ []) (f a) c c' :=
    hp.bind (passes_pure (f a) c')
  rwa [List.append_nil] at hboth

/-- Looking at a word passes over nothing. -/
theorem Passes.peek {f : Option Word → Parser α} (h : Passes (f c.rest.head?) used a c.look c') :
    Passes (peek >>= f) used a c c' where
  run := (peek_run f c).trans h.run
  rest := c.look_rest.symm.trans h.rest
  faults := h.faults.trans c.look_allFaults

theorem passes_advance (h : c.seen = some w) :
    Passes (advance w) [w] () c { c with seen := none } :=
  ⟨advance_run h, c.rest_of_seen h, rfl⟩

end Passing

/-! ### Faults -/

section Faults
variable {p : Parser α} {c : Cursor}

theorem keeps_pure (a : α) : Keeps (pure a : Parser α) :=
  fun _ => Nat.le_refl _

theorem keeps_fail : Keeps (fail : Parser α) :=
  fun _ => Nat.le_refl _

theorem Keeps.bind {f : α → Parser β} (hp : Keeps p) (hf : ∀ a, Keeps (f a)) :
    Keeps (p >>= f) := by
  intro c
  have hle := hp c
  rw [bind_run]
  cases hrun : p c with
  | mk value c' =>
    rw [hrun] at hle
    cases value with
    | none => exact hle
    | some a => exact hle.trans (hf a c')

theorem Reports.bind {f : α → Parser β} (h : Reports p c) (hf : ∀ a, Keeps (f a)) :
    Reports (p >>= f) c := by
  unfold Reports at h ⊢
  rw [bind_run]
  cases hrun : p c with
  | mk value c' =>
    rw [hrun] at h
    cases value with
    | none => exact h
    | some a => exact Nat.lt_of_lt_of_le h (hf a c')

theorem Passes.reports {f : α → Parser β} {used : List Word} {a : α} {c' : Cursor}
    (hp : Passes p used a c c') (hf : Reports (f a) c') : Reports (p >>= f) c := by
  unfold Reports at hf ⊢
  rw [bind_run, hp.run, ← hp.faults]
  exact hf

theorem Reports.advance {f : Unit → Parser α} {w : Word} (h : ∀ c, Reports (f ()) c)
    (hw : c.rest.head? = some w) : Reports (advance w >>= f) c.look :=
  (passes_advance (c.look_seen.trans hw)).reports (h _)

theorem Reports.peek {f : Option Word → Parser α} (h : Reports (f c.rest.head?) c.look) :
    Reports (peek >>= f) c := by
  unfold Reports at h ⊢
  rwa [peek_run, ← c.look_allFaults]

theorem reports_report (fault : Fault) : Reports (report fault) c :=
  c.length_allFaults_lt (List.cons_ne_nil fault [])

theorem reports_unexpected (expected : String) : Reports (unexpected expected : Parser α) c := by
  refine .peek ?_
  cases c.rest.head? with
  | none => exact (reports_report _).bind fun _ => keeps_fail
  | some w => exact (reports_report _).bind fun _ => keeps_fail

theorem reports_impossible (reason : String) : Reports (impossible reason : Parser α) c :=
  (reports_report _).bind fun _ => keeps_fail

theorem keeps_impossible (reason : String) : Keeps (impossible reason : Parser α) :=
  fun _ => Nat.le_of_lt (reports_impossible reason)

theorem keeps_loopFor {body : σ → Parser (Turn σ β)} (h : ∀ s, Keeps (body s)) (rounds : Nat)
    (s : σ) : Keeps (loopFor body rounds s) := by
  induction rounds generalizing s with
  | zero => exact keeps_impossible _
  | succ rounds ih =>
    refine (h s).bind fun turn => ?_
    cases turn with
    | again s' => exact ih s'
    | done b => exact keeps_pure b

end Faults

/-! ### Reading -/

section Reading
variable {phrases : α → Language Token} {p : Parser α} {c : Cursor} {w : Word}

theorem ReadsAt.mono {larger : α → Language Token} (h : ReadsAt phrases p c)
    (hle : ∀ a, phrases a ≤ larger a) : ReadsAt larger p c := by
  rcases h with ⟨used, a, c', hmem, hpasses⟩ | hreports
  · exact .inl ⟨used, a, c', hle a hmem, hpasses⟩
  · exact .inr hreports

theorem Reads.mono {larger : α → Language Token} (h : Reads phrases p)
    (hle : ∀ a, phrases a ≤ larger a) : Reads larger p :=
  fun c => (h c).mono hle

theorem Reads.keeps (h : Reads phrases p) : Keeps p := by
  intro c
  rcases h c with ⟨used, a, c', _, hpasses⟩ | hreports
  · rw [hpasses.run, hpasses.faults]
  · exact Nat.le_of_lt hreports

theorem readsAt_pure {a : α} (h : [] ∈ phrases a) : ReadsAt phrases (pure a) c :=
  .inl ⟨[], a, c, h, passes_pure a c⟩

theorem reads_unexpected (expected : String) : Reads phrases (unexpected expected) :=
  fun _ => .inr (reports_unexpected expected)

/-- After a report it does not matter what is read. -/
theorem readsAt_report {fault : Fault} {f : Unit → Parser α} (hf : Keeps (f ())) :
    ReadsAt phrases (report fault >>= f) c :=
  .inr ((reports_report fault).bind fun _ => hf)

theorem ReadsAt.peek {f : Option Word → Parser α} (h : ReadsAt phrases (f c.rest.head?) c.look) :
    ReadsAt phrases (peek >>= f) c := by
  rcases h with ⟨used, a, c', hmem, hpasses⟩ | hreports
  · exact .inl ⟨used, a, c', hmem, hpasses.peek⟩
  · exact .inr hreports.peek

/-- What is read in sequence is the first phrase and then one that goes with its value. -/
theorem ReadsAt.bind {f : α → Parser β} {further : α → β → Language Token}
    {whole : β → Language Token} (hp : ReadsAt phrases p c) (hf : ∀ a, Reads (further a) (f a))
    (hle : ∀ a b, phrases a * further a b ≤ whole b) : ReadsAt whole (p >>= f) c := by
  rcases hp with ⟨used, a, c', hmem, hpasses⟩ | hreports
  · rcases hf a c' with ⟨more, b, c'', hmore, hmorePasses⟩ | hreports
    · refine .inl ⟨used ++ more, b, c'', ?_, hpasses.bind hmorePasses⟩
      rw [tokens_append]
      exact hle a b (Language.append_mem_mul hmem hmore)
    · exact .inr (hpasses.reports hreports)
  · exact .inr (hreports.bind fun a => (hf a).keeps)

theorem Reads.bind {f : α → Parser β} {further : α → β → Language Token}
    {whole : β → Language Token} (hp : Reads phrases p) (hf : ∀ a, Reads (further a) (f a))
    (hle : ∀ a b, phrases a * further a b ≤ whole b) : Reads whole (p >>= f) :=
  fun c => (hp c).bind hf hle

/-- The word that was looked at is passed over. -/
theorem Reads.advance {f : Unit → Parser α} {further : α → Language Token}
    (h : Reads further (f ())) (hw : c.rest.head? = some w)
    (hle : ∀ a, {[w.token]} * further a ≤ phrases a) :
    ReadsAt phrases (advance w >>= f) c.look := by
  have hadvance : ReadsAt (fun _ => {[w.token]}) (Parser.advance w) c.look :=
    .inl ⟨[w], (), _, rfl, passes_advance (c.look_seen.trans hw)⟩
  exact hadvance.bind (fun _ => h) fun _ => hle

theorem readsAt_advance_pure {a : α} (hw : c.rest.head? = some w) (h : [w.token] ∈ phrases a) :
    ReadsAt phrases (advance w >>= fun _ => pure a) c.look :=
  .inl ⟨[w], a, _, h, (passes_advance (c.look_seen.trans hw)).andPure⟩

/-- A sequence of two parsers, neither of which makes a difference between its phrases. -/
theorem Reads.seq {first second : Language Token} {f : α → Parser β}
    (hp : Reads (fun _ => first) p) (hf : ∀ a, Reads (fun _ => second) (f a)) :
    Reads (fun _ => first * second) (p >>= f) :=
  hp.bind hf fun _ _ => le_rfl

/-- A value may be made from that of the first parser. -/
theorem Reads.andReturn {whole : Language Token} {f : α → Parser β}
    (hp : Reads (fun _ => whole) p) (hf : ∀ a, ∃ b, f a = pure b) :
    Reads (fun _ => whole) (p >>= f) := by
  have hrest : ∀ a, Reads (fun _ => (1 : Language Token)) (f a) := by
    intro a c
    obtain ⟨b, hb⟩ := hf a
    rw [hb]
    exact readsAt_pure rfl
  exact hp.bind hrest fun _ _ => (mul_one whole).le

theorem ReadsAt.andPure {f : α → β} {whole : β → Language Token} (hp : ReadsAt phrases p c)
    (hle : ∀ a, phrases a ≤ whole (f a)) : ReadsAt whole (p >>= fun a => pure (f a)) c := by
  rcases hp with ⟨used, a, c', hmem, hpasses⟩ | hreports
  · exact .inl ⟨used, f a, c', hle a hmem, hpasses.andPure⟩
  · exact .inr (hreports.bind fun a => keeps_pure (f a))

theorem Reads.andPure {f : α → β} {whole : β → Language Token} (hp : Reads phrases p)
    (hle : ∀ a, phrases a ≤ whole (f a)) : Reads whole (p >>= fun a => pure (f a)) :=
  fun c => (hp c).andPure hle

/-- The values that the parser gives at this place have the property `post`. -/
def GivesAt (post : α → Prop) (p : Parser α) (c : Cursor) : Prop :=
  ∀ a, (p c).1 = some a → post a

def Gives (post : α → Prop) (p : Parser α) : Prop :=
  ∀ c, GivesAt post p c

theorem gives_pure {post : α → Prop} {a : α} (h : post a) : Gives post (pure a) := by
  intro c b hb
  cases hb
  exact h

theorem Gives.bind {post : β → Prop} {f : α → Parser β} (h : ∀ a, Gives post (f a)) :
    Gives post (p >>= f) := by
  intro c b hb
  rw [bind_run] at hb
  split at hb
  · exact h _ _ b hb
  · cases hb

theorem GivesAt.peek {post : α → Prop} {f : Option Word → Parser α}
    (h : GivesAt post (f c.rest.head?) c.look) : GivesAt post (peek >>= f) c := by
  intro a ha
  rw [peek_run] at ha
  exact h a ha

theorem gives_unexpected {post : α → Prop} (expected : String) :
    Gives post (unexpected expected) := by
  intro c
  refine .peek ?_
  cases c.rest.head? with
  | none =>
    intro a ha
    cases ha
  | some w =>
    intro a ha
    cases ha

theorem GivesAt.recover {post : α → Prop} {f : Option α → Parser α} (hp : GivesAt post p c)
    (hsome : ∀ a, f (some a) = pure a) (hnone : Gives post (f none)) :
    GivesAt post (recover p >>= f) c := by
  intro a ha
  rw [bind_run, Parser.recover] at ha
  cases hrun : p c with
  | mk value c' =>
    rw [hrun] at ha
    cases value with
    | none => exact hnone _ a ha
    | some b =>
      dsimp only at ha
      rw [hsome b] at ha
      cases ha
      exact hp a (by rw [hrun])

theorem Reads.and {post : α → Prop} (h : Reads phrases p) (hpost : Gives post p) :
    Reads (fun a => {w | w ∈ phrases a ∧ post a}) p := by
  intro c
  rcases h c with ⟨used, a, c', hmem, hpasses⟩ | hreports
  · have ha : post a := hpost c a (by rw [hpasses.run])
    exact .inl ⟨used, a, c', ⟨hmem, ha⟩, hpasses⟩
  · exact .inr hreports

theorem Passes.recover {used : List Word} {a : α} {c' : Cursor} (h : Passes p used a c c') :
    Passes (recover p) used (some a) c c' where
  run := by rw [Parser.recover, h.run]
  rest := h.rest
  faults := h.faults

/-- A failure that is recovered from was reported. -/
theorem ReadsAt.recover {f : Option α → Parser α} (hp : ReadsAt phrases p c)
    (hsome : ∀ a, f (some a) = pure a) (hnone : Keeps (f none)) :
    ReadsAt phrases (recover p >>= f) c := by
  rcases hp with ⟨used, a, c', hmem, hpasses⟩ | hreports
  · have hvalue : Passes (f (some a)) [] a c' c' := hsome a ▸ passes_pure a c'
    have hboth := hpasses.recover.bind hvalue
    rw [List.append_nil] at hboth
    exact .inl ⟨used, a, c', hmem, hboth⟩
  · have hrecover : Reports (Parser.recover p) c := hreports
    refine .inr (hrecover.bind fun value => ?_)
    cases value with
    | none => exact hnone
    | some a => exact hsome a ▸ keeps_pure a

theorem reads_expect (token : Token) : Reads (fun _ => {[token]}) (expect token) := by
  intro c
  refine .peek ?_
  split
  · split
    · rename_i hw h
      exact readsAt_advance_pure hw (h ▸ rfl)
    · exact reads_unexpected _ _
  · exact reads_unexpected _ _

theorem reads_accept (sign : Punct) :
    Reads (fun taken => if taken then {[.punct sign]} else 1) (accept sign) := by
  intro c
  refine .peek ?_
  split
  · rename_i other span h
    split
    · rename_i hsame
      exact readsAt_advance_pure h (hsame ▸ rfl)
    · exact readsAt_pure rfl
  · exact readsAt_pure rfl

/-- A phrase that is not empty starts with the word that comes next. -/
theorem Reads.head (h : Reads phrases p) (hw : c.rest.head? = some w) (hne : ∀ a, [] ∉ phrases a) :
    ReadsAt (fun a => {v | v ∈ phrases a ∧ v.head? = some w.token}) p c.look := by
  rcases h c.look with ⟨used, a, c', hmem, hpasses⟩ | hreports
  · cases used with
    | nil => exact absurd hmem (hne a)
    | cons first used =>
      have hrest := hpasses.rest
      rw [Cursor.look_rest] at hrest
      rw [hrest] at hw
      cases hw
      exact .inl ⟨_, a, c', ⟨hmem, rfl⟩, hpasses⟩
  · exact .inr hreports

end Reading

/-! ### Loops -/

/-- The phrases of a whole loop, given those of each round. -/
inductive Rounds (phrases : σ → Turn σ β → Language Token) : σ → List Token → β → Prop where
  | done {s : σ} {b : β} {w : List Token} : w ∈ phrases s (.done b) → Rounds phrases s w b
  | again {s s' : σ} {b : β} {w v : List Token} : w ∈ phrases s (.again s') →
      Rounds phrases s' v b → Rounds phrases s (w ++ v) b

/-- A round that goes on, to a state with the property `inv`. -/
def GoesOn (inv : σ → Prop) (turn : Turn σ β) : Prop :=
  ∃ s, turn = .again s ∧ inv s

/-- A last round, with a result that has the property `post`. -/
def Ends (post : β → Prop) (turn : Turn σ β) : Prop :=
  ∃ b, turn = .done b ∧ post b

/-- Rounds that do not depend on the state: `again` for those that go on, `last` for the last. -/
def turnPhrases (again last : Language Token) : Turn σ β → Language Token
  | .again _ => again
  | .done _ => last

theorem Rounds.mem_repeated {again last : Language Token} {s : σ} {b : β} {w : List Token}
    (h : Rounds (fun _ => turnPhrases again last) s w b) : w ∈ again∗ * last := by
  induction h with
  | done h => exact mem_kstar_mul again h
  | again hw _ ih => exact append_mem_kstar_mul hw ih

theorem Reads.ifAccept {sign : Punct} {yes no : Parser (Turn σ β)} {again last : Language Token}
    (hyes : Reads (turnPhrases again 0) yes) (hno : Reads (turnPhrases 0 last) no) :
    Reads (turnPhrases ({[.punct sign]} * again) last)
      (accept sign >>= fun taken => if taken = true then yes else no) := by
  have hbranch : ∀ taken : Bool, Reads (if taken then turnPhrases again 0 else turnPhrases 0 last)
      (if taken = true then yes else no) := by
    intro taken
    cases taken with
    | false => exact hno
    | true => exact hyes
  refine (reads_accept sign).bind hbranch fun taken turn => ?_
  cases taken <;> cases turn <;> simp [turnPhrases]

section Loops
variable {body : σ → Parser (Turn σ β)}

theorem readsAt_loopFor {phrases : σ → Turn σ β → Language Token}
    (h : ∀ s, Reads (phrases s) (body s)) (hne : ∀ s s', [] ∉ phrases s (.again s'))
    {rounds : Nat} {c : Cursor} (hlt : c.rest.length < rounds) (s : σ) :
    ReadsAt (fun b => {w | Rounds phrases s w b}) (loopFor body rounds s) c := by
  induction rounds generalizing c s with
  | zero => exact absurd hlt (Nat.not_lt_zero _)
  | succ rounds ih =>
    have hkeeps := keeps_loopFor fun s => (h s).keeps
    rcases h s c with ⟨used, turn, c', hmem, hpasses⟩ | hreports
    · cases turn with
      | done b =>
        have hboth : Passes (loopFor body (rounds + 1) s) (used ++ []) b c c' :=
          hpasses.bind (passes_pure b c')
        rw [List.append_nil] at hboth
        exact .inl ⟨used, b, c', .done hmem, hboth⟩
      | again s' =>
        -- The round has used up a word, so that the rounds left are enough for the rest.
        have hlt : c'.rest.length < rounds := by
          have hused : used ≠ [] := fun hnil => hne s s' (by simpa [hnil] using hmem)
          have := List.length_pos_of_ne_nil hused
          rw [hpasses.rest, List.length_append] at hlt
          omega
        rcases ih hlt s' with ⟨more, b, c'', hmore, hmorePasses⟩ | hreports
        · refine .inl ⟨used ++ more, b, c'', ?_, hpasses.bind hmorePasses⟩
          rw [tokens_append]
          exact .again hmem hmore
        · exact .inr (hpasses.reports hreports)
    · refine .inr (hreports.bind fun turn => ?_)
      cases turn with
      | again s' => exact hkeeps rounds s'
      | done b => exact keeps_pure b

/-- A loop reads the phrases of its rounds, if those that go on are not empty. -/
theorem Reads.loop {phrases : σ → Turn σ β → Language Token}
    (h : ∀ s, Reads (phrases s) (body s)) (hne : ∀ s s', [] ∉ phrases s (.again s')) (s : σ) :
    Reads (fun b => {w | Rounds phrases s w b}) (loop body s) := by
  intro c
  rcases readsAt_loopFor h hne c.length_rest_lt s with ⟨used, b, c', hmem, hpasses⟩ | hreports
  · exact .inl ⟨used, b, c', hmem, hpasses.run, hpasses.rest, hpasses.faults⟩
  · exact .inr hreports

theorem Reads.loop_kstar {again last : Language Token}
    (h : ∀ s, Reads (turnPhrases again last) (body s)) (hne : [] ∉ again) (s : σ) :
    Reads (fun _ => again∗ * last) (Parser.loop body s) :=
  (Reads.loop h (fun _ _ => hne) s).mono fun _ _ hw => hw.mem_repeated

/-- What holds when the last round is over holds when the loop is. -/
theorem loopFor_ends (post : Cursor → Prop)
    (h : ∀ s c b, (body s c).1 = some (.done b) → post (body s c).2) {rounds : Nat} {s : σ}
    {c : Cursor} {b : β} (hb : (loopFor body rounds s c).1 = some b) :
    post (loopFor body rounds s c).2 := by
  induction rounds generalizing s c with
  | zero => cases hb
  | succ rounds ih =>
    have hbody := h s c
    rw [loopFor, bind_run] at hb ⊢
    cases hrun : body s c with
    | mk turn c' =>
      rw [hrun] at hb hbody
      match turn with
      | none => cases hb
      | some (.again s') => exact ih hb
      | some (.done b') => exact hbody b' rfl

/-- One token, whichever it is. -/
def anyToken : Language Token :=
  {w | ∃ t, w = [t]}

theorem nil_notMem_anyToken : [] ∉ anyToken := by
  intro h
  obtain ⟨_, h⟩ := h
  cases h

theorem reads_skipTo (stops : List Token) : Reads (fun _ => ⊤) (skipTo stops) := by
  have hloop : Reads (fun _ => anyToken∗ * 1) (skipTo stops) := by
    refine Reads.loop_kstar (fun _ c => .peek ?_) nil_notMem_anyToken ()
    split
    · exact readsAt_pure rfl
    · split
      · exact readsAt_pure rfl
      · exact readsAt_advance_pure ‹_› ⟨_, rfl⟩
  exact hloop.mono fun _ => le_top

end Loops

end Protobuf.Parser

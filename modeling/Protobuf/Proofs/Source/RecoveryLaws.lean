import Protobuf.Proofs.Source.ReadingLaws

/-! What parsers do also where they fail, said once for each way of building them.

`Reads` says nothing of the words that are left after a fault. What holds all the same is that a
parser is *orderly*: it only passes over words in front of it, breaks no rule of its own, and of the
faults that it adds only one kind is lexical, a string that is not UTF-8. Which of its values it
gives only after it has passed over a word is part of the property, since that is what keeps loops
within their bounds. -/
namespace Protobuf

/-- Whether a fault is about the parser itself. -/
def Fault.isInternal : Fault → Bool
  | .internal _ => true
  | _ => false

namespace Parser

variable {α β σ : Type}

/-- The fault of a string among these words that is not UTF-8. -/
def NotUtf8 (ws : List Word) (fault : Fault) : Prop :=
  ∃ bytes span, ⟨.string bytes, span⟩ ∈ ws ∧ Utf8.decode? bytes = none ∧ fault = .invalidUtf8 span

/-- A fault that a parser may add at these words: not one of its own, and not one of a single token,
unless that is a string that is not UTF-8. -/
structure Proper (ws : List Word) (fault : Fault) : Prop where
  internal : fault.isInternal = false
  lexical : fault.isLexical = true → NotUtf8 ws fault

theorem Proper.mono {ws larger : List Word} {fault : Fault} (h : Proper ws fault)
    (hle : ws <:+ larger) : Proper larger fault where
  internal := h.internal
  lexical hlexical := by
    obtain ⟨bytes, span, hmem, hbytes, hfault⟩ := h.lexical hlexical
    exact ⟨bytes, span, hle.mem hmem, hbytes, hfault⟩

/-- A fault that is neither internal nor lexical may be added anywhere. -/
theorem proper_of_not {ws : List Word} {fault : Fault} (hinternal : fault.isInternal = false)
    (hlexical : fault.isLexical = false) : Proper ws fault :=
  ⟨hinternal, fun h => by simp [hlexical] at h⟩

/-- At this place the parser passes over words in front, and the faults that it adds to those that
are there or to come are proper ones. Where it gives a value for which `spends` holds, it has passed
over a word. -/
structure OrderlyAt (spends : α → Prop) (p : Parser α) (c : Cursor) : Prop where
  rest : (p c).2.rest <:+ c.rest
  faults : ∃ more, (p c).2.allFaults.Perm (c.allFaults ++ more) ∧
    ∀ fault ∈ more, Proper c.rest fault
  spent (a : α) : (p c).1 = some a → spends a → (p c).2.rest.length < c.rest.length

/-- The same wherever the parser is. -/
def Orderly (spends : α → Prop) (p : Parser α) : Prop :=
  ∀ c, OrderlyAt spends p c

abbrev Never (_ : α) : Prop :=
  False

/-- At this place the parser passes over a word, whether it gives a value or not. -/
def Uses (p : Parser α) (c : Cursor) : Prop :=
  (p c).2.rest.length < c.rest.length

/-! ### Building parsers -/

section Rules
variable {spends : α → Prop} {p : Parser α} {c : Cursor} {w : Word}

theorem OrderlyAt.imp {fewer : α → Prop} (h : OrderlyAt spends p c)
    (himp : ∀ a, fewer a → spends a) : OrderlyAt fewer p c where
  rest := h.rest
  faults := h.faults
  spent a ha hspends := h.spent a ha (himp a hspends)

theorem Orderly.imp {fewer : α → Prop} (h : Orderly spends p) (himp : ∀ a, fewer a → spends a) :
    Orderly fewer p :=
  fun c => (h c).imp himp

theorem OrderlyAt.of_uses (h : OrderlyAt Never p c) (huses : Uses p c) : OrderlyAt spends p c where
  rest := h.rest
  faults := h.faults
  spent _ _ _ := huses

/-- The words that were passed over. -/
theorem OrderlyAt.exists_used {a : α} (h : OrderlyAt spends p c) (ha : (p c).1 = some a)
    (hspends : spends a) : ∃ used, used ≠ [] ∧ c.rest = used ++ (p c).2.rest := by
  have hless := h.spent a ha hspends
  obtain ⟨used, hused⟩ := h.rest
  refine ⟨used, ?_, hused.symm⟩
  rintro rfl
  rw [List.nil_append] at hused
  rw [hused] at hless
  exact Nat.lt_irrefl _ hless

theorem orderly_pure {a : α} (h : ¬spends a) : Orderly spends (pure a) := by
  intro c
  refine ⟨List.suffix_rfl, ⟨[], by rw [List.append_nil]; rfl, nofun⟩, fun b hb hspends => ?_⟩
  cases hb
  exact absurd hspends h

theorem orderly_fail : Orderly spends (fail : Parser α) := by
  intro c
  exact ⟨List.suffix_rfl, ⟨[], by rw [List.append_nil]; rfl, nofun⟩, nofun⟩

/-- What is passed over in sequence is passed over by one of the two parsers. -/
theorem OrderlyAt.bind {f : α → Parser β} {further : α → β → Prop} {whole : β → Prop}
    (hp : OrderlyAt spends p c)
    (hf : ∀ a c', c'.rest <:+ c.rest → (spends a → c'.rest.length < c.rest.length) →
      OrderlyAt (further a) (f a) c')
    (hwhole : ∀ a b, whole b → spends a ∨ further a b) : OrderlyAt whole (p >>= f) c := by
  obtain ⟨hrest, ⟨more, hmore, hproper⟩, hspent⟩ := hp
  have hrun := bind_run p f c
  cases hfirst : p c with
  | mk value c' =>
    rw [hfirst] at hrest hmore hspent hrun
    cases value with
    | none => exact ⟨hrun ▸ hrest, ⟨more, hrun ▸ hmore, hproper⟩, fun b hb => by cases hrun ▸ hb⟩
    | some a =>
      obtain ⟨hrest', ⟨extra, hextra, hlater⟩, hspent'⟩ := hf a c' hrest (hspent a rfl)
      refine ⟨hrun ▸ hrest'.trans hrest, ⟨more ++ extra, ?_, ?_⟩, fun b hb hmoves => ?_⟩
      · rw [hrun, ← List.append_assoc]
        exact hextra.trans (hmore.append_right extra)
      · exact List.forall_mem_append.mpr ⟨hproper, fun fault h => (hlater fault h).mono hrest⟩
      · rw [hrun] at hb ⊢
        rcases hwhole a b hmoves with hfirst | hsecond
        · exact Nat.lt_of_le_of_lt hrest'.length_le (hspent a rfl hfirst)
        · exact Nat.lt_of_lt_of_le (hspent' b hb hsecond) hrest.length_le

/-- Where the first parser stops matters to the second. -/
theorem OrderlyAt.andNext {f : α → Parser β} (hp : OrderlyAt spends p c)
    (hf : ∀ a c', c'.rest <:+ c.rest → (spends a → c'.rest.length < c.rest.length) →
      OrderlyAt Never (f a) c') : OrderlyAt Never (p >>= f) c :=
  hp.bind hf fun _ _ => False.elim

/-- The first parser passes over a word. -/
theorem OrderlyAt.first {f : α → Parser β} {whole : β → Prop} (hp : OrderlyAt Any p c)
    (hf : ∀ a c', c'.rest.length < c.rest.length → OrderlyAt Never (f a) c') :
    OrderlyAt whole (p >>= f) c :=
  hp.bind (fun a c' _ hless => hf a c' (hless trivial)) fun _ _ _ => .inl trivial

theorem Orderly.bind {f : α → Parser β} {whole : β → Prop} (hp : Orderly Any p)
    (hf : ∀ a, Orderly Never (f a)) : Orderly whole (p >>= f) :=
  fun c => (hp c).first fun a c' _ => hf a c'

/-- The second parser passes over a word, if any does. -/
theorem Orderly.andThen {f : α → Parser β} {whole : β → Prop} (hp : Orderly Never p)
    (hf : ∀ a, Orderly whole (f a)) : Orderly whole (p >>= f) :=
  fun c => (hp c).bind (fun a c' _ _ => hf a c') fun _ _ => .inr

/-- Looking at a word passes over nothing and adds nothing. -/
theorem OrderlyAt.peek {f : Option Word → Parser α}
    (h : OrderlyAt spends (f c.rest.head?) c.look) : OrderlyAt spends (peek >>= f) c := by
  obtain ⟨hrest, ⟨more, hmore, hproper⟩, hspent⟩ := h
  rw [Cursor.look_rest] at hrest hproper hspent
  rw [Cursor.look_allFaults] at hmore
  have hrun := peek_run f c
  exact ⟨hrun ▸ hrest, ⟨more, hrun ▸ hmore, hproper⟩, hrun ▸ hspent⟩

theorem OrderlyAt.report {fault : Fault} {f : Unit → Parser α} (hfault : Proper c.rest fault)
    (h : OrderlyAt spends (f ()) { c with faults := c.faults ++ [fault] }) :
    OrderlyAt spends (report fault >>= f) c := by
  obtain ⟨hrest, ⟨more, hmore, hproper⟩, hspent⟩ := h
  refine ⟨hrest, ⟨[fault] ++ more, ?_, List.forall_mem_cons.mpr ⟨hfault, hproper⟩⟩, hspent⟩
  rw [← List.append_assoc]
  exact hmore.trans ((c.allFaults_record [fault]).append_right more)

theorem Orderly.report {fault : Fault} {f : Unit → Parser α}
    (hinternal : fault.isInternal = false) (hlexical : fault.isLexical = false)
    (h : Orderly spends (f ())) : Orderly spends (report fault >>= f) :=
  fun _ => .report (proper_of_not hinternal hlexical) (h _)

theorem orderly_unexpected (expected : String) :
    Orderly spends (unexpected expected : Parser α) := by
  intro c
  refine .peek ?_
  cases c.rest.head? with
  | none => exact Orderly.report rfl rfl orderly_fail _
  | some w => exact Orderly.report rfl rfl orderly_fail _

theorem orderlyAt_advance (hw : c.rest.head? = some w) : OrderlyAt Any (advance w) c.look := by
  have hadvance := passes_advance (c.look_seen.trans hw)
  have hrun := hadvance.run
  refine ⟨?_, ⟨[], ?_, nofun⟩, fun _ _ _ => ?_⟩
  · rw [hrun, hadvance.rest]
    exact List.suffix_append ..
  · rw [hrun, hadvance.faults, List.append_nil]
  · rw [hrun, hadvance.rest, List.length_append]
    exact Nat.lt_add_of_pos_left (Nat.zero_lt_succ _)

/-- A word is passed over that was looked at. -/
theorem OrderlyAt.advance {f : Unit → Parser α} (hw : c.rest.head? = some w)
    (hf : Orderly Never (f ())) : OrderlyAt spends (advance w >>= f) c.look :=
  (orderlyAt_advance hw).first fun _ c' _ => hf c'

/-- The word that is passed over may be at fault itself. -/
theorem OrderlyAt.advanceReport {fault : Fault} {f : Unit → Parser α} (hw : c.rest.head? = some w)
    (hfault : Proper c.rest fault) (hf : Orderly Never (f ())) :
    OrderlyAt spends (Parser.advance w >>= fun _ => Parser.report fault >>= f) c.look := by
  have hadvance := passes_advance (c.look_seen.trans hw)
  have hrun : (Parser.advance w >>= fun _ => Parser.report fault) c.look =
      (some (), { c.look with seen := none, faults := c.look.faults ++ [fault] }) := by
    rw [bind_run, hadvance.run]
    rfl
  have hboth : OrderlyAt Any (Parser.advance w >>= fun _ => Parser.report fault) c.look := by
    refine ⟨?_, ⟨[fault], ?_, by simpa using hfault⟩, fun _ _ _ => ?_⟩
    · rw [hrun, hadvance.rest]
      exact List.suffix_append ..
    · rw [hrun]
      exact Cursor.allFaults_record { c.look with seen := none } [fault]
    · rw [hrun, hadvance.rest, List.length_append]
      exact Nat.lt_add_of_pos_left (Nat.zero_lt_succ _)
  rw [← bind_assoc]
  exact hboth.first fun _ c' _ => hf c'

theorem orderly_expect (token : Token) : Orderly Any (expect token) := by
  intro c
  refine .peek ?_
  split
  · split
    · exact .advance ‹_› (orderly_pure id)
    · exact orderly_unexpected _ _
  · exact orderly_unexpected _ _

theorem orderly_sign (sign : Punct) : Orderly Any (Parser.sign sign) :=
  orderly_expect _

theorem orderly_keyword (name : String) : Orderly Any (keyword name) :=
  orderly_expect _

theorem orderly_accept (sign : Punct) : Orderly Never (accept sign) := by
  intro c
  refine .peek ?_
  split
  · split
    · exact .advance ‹_› (orderly_pure id)
    · exact orderly_pure id _
  · exact orderly_pure id _

theorem Orderly.recover (h : Orderly spends p) : Orderly Never (recover p) :=
  fun c => ⟨(h c).rest, (h c).faults, fun _ _ => False.elim⟩

end Rules

/-! ### Loops -/

section Loops
variable {body : σ → Parser (Turn σ β)}

/-- A loop stays within its bound, if those of its rounds that go on pass over a word. It is enough
that they do so as long as there are at most so many words. -/
theorem orderlyAt_loopFor {bound : Nat}
    (hbody : ∀ s c, c.rest.length ≤ bound → OrderlyAt (GoesOn Any) (body s) c) {rounds : Nat}
    {c : Cursor} (hbound : c.rest.length ≤ bound) (hlt : c.rest.length < rounds) (s : σ) :
    OrderlyAt Never (loopFor body rounds s) c := by
  induction rounds generalizing c s with
  | zero => exact absurd hlt (Nat.not_lt_zero _)
  | succ rounds ih =>
    refine (hbody s c hbound).andNext fun turn c' hrest hspent => ?_
    cases turn with
    | done b => exact orderly_pure id c'
    | again s' =>
      have hless := hspent ⟨s', rfl, trivial⟩
      exact ih (hrest.length_le.trans hbound) (by omega) s'

theorem orderlyAt_loop {c : Cursor}
    (hbody : ∀ s c', c'.rest.length ≤ c.rest.length → OrderlyAt (GoesOn Any) (body s) c') (s : σ) :
    OrderlyAt Never (loop body s) c :=
  have h := orderlyAt_loopFor hbody Nat.le.refl c.length_rest_lt s
  ⟨h.rest, h.faults, h.spent⟩

theorem orderly_loop (hbody : ∀ s, Orderly (GoesOn Any) (body s)) (s : σ) :
    Orderly Never (loop body s) :=
  fun _ => orderlyAt_loop (fun s c' _ => hbody s c') s

end Loops

/-! ### Progress -/

section Progress
variable {p : Parser α} {c : Cursor} {w : Word}

/-- What follows cannot give words back. -/
theorem Uses.first {f : α → Parser β} (hp : Uses p c)
    (hf : ∀ a c', c'.rest.length < c.rest.length → OrderlyAt Never (f a) c') :
    Uses (p >>= f) c := by
  unfold Uses at hp ⊢
  rw [bind_run]
  cases hrun : p c with
  | mk value c' =>
    rw [hrun] at hp
    cases value with
    | none => exact hp
    | some a => exact Nat.lt_of_le_of_lt (hf a c' hp).rest.length_le hp

theorem Uses.bind {f : α → Parser β} (hp : Uses p c) (hf : ∀ a, Orderly Never (f a)) :
    Uses (p >>= f) c :=
  hp.first fun a c' _ => hf a c'

theorem Uses.peek {f : Option Word → Parser α} (h : Uses (f c.rest.head?) c.look) :
    Uses (peek >>= f) c := by
  rw [Uses, Cursor.look_rest] at h
  rwa [Uses, peek_run]

theorem Uses.report {fault : Fault} {f : Unit → Parser α}
    (h : Uses (f ()) { c with faults := c.faults ++ [fault] }) : Uses (report fault >>= f) c :=
  h

theorem uses_advance (hw : c.rest.head? = some w) : Uses (advance w) c.look := by
  have hrun := advance_run (c.look_seen.trans hw)
  exact (orderlyAt_advance hw).spent () (by rw [hrun]) trivial

theorem uses_expect {token : Token} {span : Span} (hw : c.rest.head? = some ⟨token, span⟩) :
    Uses (expect token) c := by
  refine .peek ?_
  rw [hw]
  dsimp only
  rw [if_pos rfl]
  exact (uses_advance hw).bind fun _ => orderly_pure id

/-- A loop passes over what its first round does. -/
theorem Uses.loop {body : σ → Parser (Turn σ β)} {s : σ} (h : Uses (body s) c)
    (hbody : ∀ s, Orderly (GoesOn Any) (body s)) : Uses (loop body s) c := by
  unfold Uses at h ⊢
  have hrounds := (hbody s c).rest
  rw [Parser.loop, Cursor.limit, loopFor, bind_run]
  cases hrun : body s c with
  | mk value c' =>
    rw [hrun] at h hrounds
    cases value with
    | none => exact h
    | some turn =>
      cases turn with
      | done b => exact h
      | again s' =>
        dsimp only at h
        have hlt : c'.rest.length < c.lexemes.length + 1 := by
          have := c.length_rest_lt
          rw [Cursor.limit] at this
          omega
        have hrest := orderlyAt_loopFor (fun s c _ => hbody s c) (Nat.le_refl c'.rest.length) hlt s'
        exact Nat.lt_of_le_of_lt hrest.rest.length_le h

theorem orderly_skipRound (stops : List Token) (s : Unit) :
    Orderly (GoesOn Any) (skipRound stops s) := by
  intro c
  refine .peek ?_
  split
  · exact orderly_pure nofun _
  · split
    · exact orderly_pure nofun _
    · exact .advance ‹_› (orderly_pure id)

theorem orderly_skipTo (stops : List Token) : Orderly Never (skipTo stops) :=
  orderly_loop (orderly_skipRound stops) ()

theorem orderly_blockRound (depth : Nat) : Orderly Any (blockRound depth) := by
  intro c
  refine .peek ?_
  split
  · exact .advance ‹_› (orderly_pure id)
  · exact .advance ‹_› (orderly_pure id)
  · exact .advance ‹_› (orderly_pure id)
  · exact orderly_unexpected _ _

theorem orderly_skipBlock : Orderly Never skipBlock :=
  orderly_loop (fun depth => (orderly_blockRound depth).imp fun _ _ => trivial) 0

/-- Words are passed over up to one that is among `stops`. -/
theorem uses_skipTo {stops : List Token} (hw : c.rest.head? = some w) (hstop : w.token ∉ stops) :
    Uses (skipTo stops) c := by
  refine .loop (.peek ?_) (orderly_skipRound stops)
  rw [hw]
  dsimp only
  rw [if_neg hstop]
  exact (uses_advance hw).bind fun _ => orderly_pure id

theorem uses_skipBlock (hw : c.rest.head? = some w) : Uses skipBlock c := by
  refine .loop (.peek ?_) fun depth => (orderly_blockRound depth).imp fun _ _ => trivial
  split
  · exact (uses_advance ‹_›).bind fun _ => orderly_pure id
  · exact (uses_advance ‹_›).bind fun _ => orderly_pure id
  · exact (uses_advance ‹_›).bind fun _ => orderly_pure id
  · rename_i h
    cases hw.symm.trans h

theorem orderlyAt_skipBlock {spends : Unit → Prop} {c' : Cursor} (hw : c.rest.head? = some w)
    (hc : c'.rest = c.rest) : OrderlyAt spends skipBlock c' :=
  (orderly_skipBlock c').of_uses (uses_skipBlock (hc ▸ hw))

theorem orderlyAt_skipTo {spends : Unit → Prop} {stops : List Token} {c' : Cursor}
    (hw : c.rest.head? = some w) (hstop : w.token ∉ stops) (hc : c'.rest = c.rest) :
    OrderlyAt spends (skipTo stops) c' :=
  (orderly_skipTo stops c').of_uses (uses_skipTo (hc ▸ hw) hstop)

/-- The parser begins with this word: where it comes next, it is used up. -/
structure Begins (name : String) (p : Parser α) : Prop where
  orderly : Orderly Any p
  uses {c : Cursor} {span : Span} : c.rest.head? = some ⟨.ident name, span⟩ → Uses p c

theorem Begins.keyword (name : String) {f : Span → Parser α} (hf : ∀ span, Orderly Never (f span)) :
    Begins name (keyword name >>= f) where
  orderly := (orderly_keyword name).bind hf
  uses hw := (uses_expect hw).bind hf

theorem Begins.bind {name : String} {whole : β → Prop} {f : α → Parser β} (h : Begins name p)
    (hf : ∀ a, Orderly Never (f a)) : Orderly whole (p >>= f) :=
  h.orderly.bind hf

theorem Begins.uses_bind {name : String} {span : Span} {f : α → Parser β} (h : Begins name p)
    (hw : c.rest.head? = some ⟨.ident name, span⟩) (hf : ∀ a, Orderly Never (f a)) :
    Uses (p >>= f) c.look :=
  (h.uses (c.look_rest.symm ▸ hw)).bind hf

/-- The parser uses up a word, or it fails where it is, at a word that is not among `stops`. -/
def Moves (stops : List Token) (p : Parser α) (c : Cursor) : Prop :=
  Uses p c ∨ ∃ w c', c.rest.head? = some w ∧ w.token ∉ stops ∧ p c = (none, c') ∧ c'.rest = c.rest

theorem Moves.peek {stops : List Token} {f : Option Word → Parser α}
    (h : Moves stops (f c.rest.head?) c.look) : Moves stops (peek >>= f) c := by
  rcases h with huses | ⟨w, c', hw, hstop, hrun, hrest⟩
  · exact .inl huses.peek
  · rw [Cursor.look_rest] at hw hrest
    exact .inr ⟨w, c', hw, hstop, (peek_run f c).trans hrun, hrest⟩

theorem moves_unexpected {stops : List Token} (hw : c.rest.head? = some w) (hstop : w.token ∉ stops)
    (expected : String) : Moves stops (unexpected expected : Parser α) c := by
  refine .peek (.inr ⟨w, { c.look with faults := c.look.faults ++
    [.unexpectedToken expected w.token.text w.span] }, ?_, hstop, ?_, ?_⟩)
  · rw [Cursor.look_rest, hw]
  · rw [hw]
    rfl
  · rfl

/-- After a failure, passing over words up to one of `stops` makes sure that a word is used up. -/
theorem Moves.recover {stops : List Token} {f : Option α → Parser β} {g : Unit → Parser β}
    (h : Moves stops p c) (hf : ∀ a, Orderly Never (f (some a)))
    (hnone : f none = skipTo stops >>= g) (hg : Orderly Never (g ())) :
    Uses (recover p >>= f) c := by
  have hskip : Orderly Never (f none) := by
    rw [hnone]
    exact (orderly_skipTo stops).andThen fun _ => hg
  rcases h with huses | ⟨w, c', hw, hstop, hrun, hrest⟩
  · have hrecover : Uses (Parser.recover p) c := huses
    refine hrecover.bind fun value => ?_
    cases value with
    | none => exact hskip
    | some a => exact hf a
  · have hskips : Uses (f none) c' := by
      rw [hnone]
      exact (uses_skipTo (hrest ▸ hw) hstop).bind fun _ => hg
    rw [Uses, hrest] at hskips
    rwa [Uses, bind_run, Parser.recover, hrun]

end Progress

/-! ### Success -/

/-- The parser always gives a value. -/
def Succeeds (p : Parser α) : Prop :=
  ∀ c, ∃ a, (p c).1 = some a

theorem succeeds_pure (a : α) : Succeeds (pure a : Parser α) :=
  fun _ => ⟨a, rfl⟩

theorem succeeds_recover (p : Parser α) : Succeeds (recover p) :=
  fun c => ⟨(p c).1, rfl⟩

theorem Succeeds.peek {f : Option Word → Parser α} (h : ∀ w, Succeeds (f w)) :
    Succeeds (peek >>= f) := by
  intro c
  rw [peek_run]
  exact h _ _

theorem Succeeds.bind {p : Parser α} {f : α → Parser β} (hp : Succeeds p)
    (hf : ∀ a, Succeeds (f a)) : Succeeds (p >>= f) := by
  intro c
  obtain ⟨a, ha⟩ := hp c
  rw [bind_run]
  cases hrun : p c with
  | mk value c' =>
    rw [hrun] at ha
    cases ha
    exact hf a c'

/-- A loop always gives a value if its rounds do and those that go on use up a word: there are then
enough rounds. -/
theorem succeeds_loop {body : σ → Parser (Turn σ β)} (hsucceeds : ∀ s, Succeeds (body s))
    (hbody : ∀ s, Orderly (GoesOn Any) (body s)) (s : σ) : Succeeds (loop body s) := by
  have hrounds : ∀ (rounds : Nat) (s : σ) (c : Cursor), c.rest.length < rounds →
      ∃ b, (loopFor body rounds s c).1 = some b := by
    intro rounds
    induction rounds with
    | zero => exact fun _ _ hlt => absurd hlt (Nat.not_lt_zero _)
    | succ rounds ih =>
      intro s c hlt
      obtain ⟨turn, hturn⟩ := hsucceeds s c
      have hspent := (hbody s c).spent
      rw [loopFor, bind_run]
      cases hrun : body s c with
      | mk value c' =>
        rw [hrun] at hturn hspent
        cases hturn
        cases turn with
        | done b => exact ⟨b, rfl⟩
        | again s' =>
          have hless : c'.rest.length < c.rest.length := hspent _ rfl ⟨s', rfl, trivial⟩
          exact ih s' c' (Nat.lt_of_lt_of_le hless (Nat.le_of_lt_succ hlt))
  exact fun c => hrounds _ s c c.length_rest_lt

theorem succeeds_skipTo (stops : List Token) : Succeeds (skipTo stops) := by
  refine succeeds_loop (fun _ c => ?_) (orderly_skipRound stops) ()
  rw [skipRound, peek_run]
  cases hw : c.rest.head? with
  | none => exact ⟨_, rfl⟩
  | some w =>
    dsimp only
    split
    · exact ⟨_, rfl⟩
    · rw [bind_run, advance_run (c.look_seen.trans hw)]
      exact ⟨_, rfl⟩

end Parser

end Protobuf

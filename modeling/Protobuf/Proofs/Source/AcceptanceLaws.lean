import Protobuf.Proofs.Source.ReadingLaws

/-! What parsers accept, said once for each way of building them.

`Accepts` is the converse of `Reads`: the parser passes over each phrase of a language, if what
comes next is no hindrance. A parser looks one token ahead, so a sequence accepts the phrases of its
parts if the later ones lead with a token that does not keep the first part from ending. -/
namespace Protobuf.Parser
open scoped Computability

variable {α β σ : Type}

/-- The parser passes over every phrase of a language, before words the first token of which is
`next`, and gives a value with the property `post`. -/
def Accepts (next : Option Token → Prop) (phrases : Language Token) (post : α → Prop)
    (p : Parser α) : Prop :=
  ∀ (c : Cursor) used rest, c.rest = used ++ rest → tokens used ∈ phrases →
    next (tokens rest).head? → ∃ a c', post a ∧ Passes p used a c c'

/-- If what comes after a phrase is `next`, then what comes first, of both, is `before`. -/
def Leads (next : Option Token → Prop) (phrases : Language Token)
    (before : Option Token → Prop) : Prop :=
  ∀ v ∈ phrases, ∀ t, next t → before (v.head?.or t)

/-! ### Sequences -/

section Accepting
variable {next : Option Token → Prop} {phrases further : Language Token} {post : α → Prop}
  {p : Parser α}

theorem Passes.rest_eq {used rest : List Word} {a : α} {c c' : Cursor} (h : Passes p used a c c')
    (hc : c.rest = used ++ rest) : c'.rest = rest :=
  List.append_cancel_left (h.rest.symm.trans hc)

theorem Accepts.mono (h : Accepts next phrases post p) {smaller : Language Token}
    (hle : smaller ≤ phrases) : Accepts next smaller post p :=
  fun c used rest hc hmem hnext => h c used rest hc (hle hmem) hnext

/-- A language is accepted if each of its phrases is. -/
theorem Accepts.of_forall (h : ∀ v ∈ phrases, Accepts next {v} post p) :
    Accepts next phrases post p :=
  fun c used rest hc hmem hnext => h _ hmem c used rest hc rfl hnext

theorem Accepts.imp (h : Accepts next phrases post p) {weaker : α → Prop}
    (himp : ∀ a, post a → weaker a) : Accepts next phrases weaker p := by
  intro c used rest hc hmem hnext
  obtain ⟨a, c', ha, hpasses⟩ := h c used rest hc hmem hnext
  exact ⟨a, c', himp a ha, hpasses⟩

theorem Accepts.followed {before : Option Token → Prop} (h : Accepts before phrases post p)
    (himp : ∀ t, next t → before t) : Accepts next phrases post p :=
  fun c used rest hc hmem hnext => h c used rest hc hmem (himp _ hnext)

theorem Accepts.add (h : Accepts next phrases post p) (h' : Accepts next further post p) :
    Accepts next (phrases + further) post p := by
  intro c used rest hc hmem hnext
  rcases hmem with hmem | hmem
  · exact h c used rest hc hmem hnext
  · exact h' c used rest hc hmem hnext

theorem leads_any : Leads next phrases Any :=
  fun _ _ _ _ => trivial

theorem leads_of_head? {t : Token} {before : Option Token → Prop}
    (h : ∀ v ∈ phrases, v.head? = some t) (ht : before (some t)) : Leads next phrases before := by
  intro v hv u _
  rw [h v hv]
  exact ht

theorem leads_token {t : Token} {before : Option Token → Prop} (h : before (some t)) :
    Leads next {[t]} before :=
  leads_of_head? (fun _ hv => congrArg List.head? (Set.mem_singleton_iff.mp hv)) h

theorem leads_token_mul {t : Token} {rest : Language Token} {before : Option Token → Prop}
    (h : before (some t)) : Leads next ({[t]} * rest) before :=
  leads_of_head? (fun _ => head?_of_mem_token_mul) h

theorem leads_one : Leads next 1 next := by
  intro v hv t ht
  cases Language.mem_one v |>.mp hv
  exact ht

theorem Leads.imp {before weaker : Option Token → Prop} (h : Leads next phrases before)
    (himp : ∀ t, before t → weaker t) : Leads next phrases weaker :=
  fun v hv t ht => himp _ (h v hv t ht)

theorem Leads.add {before : Option Token → Prop} (h : Leads next phrases before)
    (h' : Leads next further before) : Leads next (phrases + further) before :=
  fun v hv => hv.elim (h v) (h' v)

theorem Leads.kstar_mul {before : Option Token → Prop} (h : Leads Any phrases before)
    (hne : [] ∉ phrases) (h' : Leads next further before) :
    Leads next (phrases∗ * further) before := by
  intro w hw t ht
  obtain ⟨u, hu, v, hv, rfl⟩ := Language.mem_mul.mp hw
  obtain ⟨parts, rfl, hparts⟩ := Language.mem_kstar.mp hu
  cases parts with
  | nil => exact h' v hv t ht
  | cons part parts =>
    have hpart := hparts part List.mem_cons_self
    cases part with
    | nil => exact absurd hpart hne
    | cons token part => exact h _ hpart none trivial

theorem Leads.kstar {before : Option Token → Prop} (h : Leads Any phrases before)
    (hne : [] ∉ phrases) (himp : ∀ t, next t → before t) : Leads next phrases∗ before := by
  rw [← mul_one phrases∗]
  exact h.kstar_mul hne (leads_one.imp himp)

theorem accepts_pure {a : α} (h : post a) : Accepts next 1 post (pure a) := by
  intro c used rest _ hmem _
  cases List.map_eq_nil_iff.mp hmem
  exact ⟨a, c, h, passes_pure a c⟩

/-- A sequence accepts phrases in sequence, if the later ones are no hindrance to the first. -/
theorem Accepts.bind {before : Option Token → Prop} {f : α → Parser β} {post' : β → Prop}
    (hp : Accepts before phrases post p) (hf : ∀ a, post a → Accepts next further post' (f a))
    (hbefore : Leads next further before) :
    Accepts next (phrases * further) post' (p >>= f) := by
  intro c words rest hc hmem hnext
  obtain ⟨u, hu, v, hv, huv⟩ := Language.mem_mul.mp hmem
  obtain ⟨used, more, rfl, rfl, rfl⟩ := tokens_eq_append_iff.mp huv.symm
  rw [List.append_assoc] at hc
  have hhead : before (tokens (more ++ rest)).head? := by
    rw [tokens_append, List.head?_append]
    exact hbefore _ hv _ hnext
  obtain ⟨a, c', ha, hpasses⟩ := hp c used (more ++ rest) hc hu hhead
  obtain ⟨b, c'', hb, hmorePasses⟩ := hf a ha c' more rest (hpasses.rest_eq hc) hv hnext
  exact ⟨b, c'', hb, hpasses.bind hmorePasses⟩

/-- A sequence whose first parser does not depend on what comes next. -/
theorem Accepts.seq {f : α → Parser β} {post' : β → Prop} (hp : Accepts Any phrases post p)
    (hf : ∀ a, post a → Accepts next further post' (f a)) :
    Accepts next (phrases * further) post' (p >>= f) :=
  hp.bind hf leads_any

theorem Accepts.andReturn {f : α → Parser β} {post' : β → Prop} (hp : Accepts next phrases post p)
    (hf : ∀ a, post a → ∃ b, post' b ∧ f a = pure b) : Accepts next phrases post' (p >>= f) := by
  rw [← mul_one phrases]
  refine hp.bind (fun a ha => ?_) leads_one
  obtain ⟨b, hb, hgives⟩ := hf a ha
  exact hgives ▸ accepts_pure hb

theorem Accepts.andPure {f : α → β} {post' : β → Prop} (hp : Accepts next phrases post p)
    (hpost : ∀ a, post a → post' (f a)) :
    Accepts next phrases post' (p >>= fun a => pure (f a)) :=
  hp.andReturn fun a ha => ⟨f a, hpost a ha, rfl⟩

/-- A parser that could be recovered from does not fail. -/
theorem Accepts.recover {f : Option α → Parser α} (hp : Accepts next phrases post p)
    (hsome : ∀ a, f (some a) = pure a) : Accepts next phrases post (Parser.recover p >>= f) := by
  have hrecover : Accepts next phrases (fun value => ∃ a, post a ∧ value = some a)
      (Parser.recover p) := by
    intro c used rest hc hmem hnext
    obtain ⟨a, c', ha, hpasses⟩ := hp c used rest hc hmem hnext
    exact ⟨some a, c', ⟨a, ha, rfl⟩, hpasses.recover⟩
  refine hrecover.andReturn fun value hvalue => ?_
  obtain ⟨a, ha, rfl⟩ := hvalue
  exact ⟨a, ha, hsome a⟩

/-! ### Looking ahead -/

/-- A parser that looks ahead, if it goes on rightly at what may come first. -/
theorem Accepts.peek {f : Option Word → Parser α}
    (hf : ∀ v ∈ phrases, ∀ t, next t → ∀ w : Option Word, w.map (·.token) = v.head?.or t →
      Accepts next phrases post (f w)) :
    Accepts next phrases post (Parser.peek >>= f) := by
  intro c used rest hc hmem hnext
  have hfirst : c.rest.head?.map (·.token) = (tokens used).head?.or (tokens rest).head? := by
    rw [hc, ← List.head?_append, ← tokens_append, tokens, List.head?_map]
  obtain ⟨a, c', ha, hpasses⟩ :=
    hf _ hmem _ hnext _ hfirst c.look used rest (c.look_rest.trans hc) hmem hnext
  exact ⟨a, c', ha, hpasses.peek⟩

/-- Phrases with a first token, if the parser goes on rightly at each of these. -/
theorem Accepts.peekWord {f : Option Word → Parser α}
    (hf : ∀ v ∈ phrases, ∃ t, v.head? = some t ∧
      ∀ span, Accepts next phrases post (f (some ⟨t, span⟩))) :
    Accepts next phrases post (Parser.peek >>= f) := by
  refine .peek fun v hv _ _ w hw => ?_
  obtain ⟨t, hhead, hgoes⟩ := hf v hv
  rw [hhead, Option.some_or] at hw
  obtain ⟨⟨_, span⟩, rfl, rfl⟩ := Option.map_eq_some_iff.mp hw
  exact hgoes span

/-- Phrases that start with a token at which the parser goes on as `p`. -/
theorem Accepts.peekHead {f : Option Word → Parser α} (hp : Accepts next phrases post p)
    (hf : ∀ v ∈ phrases, ∃ t, v.head? = some t ∧ ∀ span, f (some ⟨t, span⟩) = p) :
    Accepts next phrases post (Parser.peek >>= f) := by
  refine .peekWord fun v hv => ?_
  obtain ⟨t, hhead, hgoes⟩ := hf v hv
  exact ⟨t, hhead, fun span => hgoes span ▸ hp⟩

/-- Phrases that start with a token which the parser passes over. -/
theorem Accepts.peekToken {t : Token} {f : Option Word → Parser α} {g : Span → Parser α}
    (hf : ∀ span, f (some ⟨t, span⟩) = advance ⟨t, span⟩ >>= fun _ => g span)
    (hg : ∀ span, Accepts next phrases post (g span)) :
    Accepts next ({[t]} * phrases) post (Parser.peek >>= f) := by
  intro c words rest hc hmem hnext
  obtain ⟨u, hu, v, hv, huv⟩ := Language.mem_mul.mp hmem
  obtain ⟨used, more, rfl, hused, rfl⟩ := tokens_eq_append_iff.mp huv.symm
  obtain ⟨w, rfl, rfl⟩ := List.map_eq_singleton_iff.mp (hused.trans hu)
  have hw : c.rest.head? = some w := by rw [hc]; rfl
  have hadvance := passes_advance (c.look_seen.trans hw)
  have hmore : { c.look with seen := none }.rest = more ++ rest :=
    hadvance.rest_eq (c.look_rest.trans hc)
  obtain ⟨a, c', ha, hpasses⟩ := hg w.span _ more rest hmore hv hnext
  refine ⟨a, c', ha, .peek ?_⟩
  rw [hw, hf w.span]
  exact hadvance.bind hpasses

theorem Accepts.peekOnly {t : Token} {f : Option Word → Parser α}
    (hf : ∀ span, ∃ a, post a ∧ f (some ⟨t, span⟩) = advance ⟨t, span⟩ >>= fun _ => pure a) :
    Accepts next {[t]} post (Parser.peek >>= f) := by
  choose g hg using hf
  rw [← mul_one {[t]}]
  exact .peekToken (fun span => (hg span).2) fun span => accepts_pure (hg span).1

/-- Phrases of one token each, if the parser passes over it. -/
theorem Accepts.peekEach {f : Option Word → Parser α}
    (hf : ∀ v ∈ phrases, ∃ t, v = [t] ∧
      ∀ span, ∃ a, post a ∧ f (some ⟨t, span⟩) = advance ⟨t, span⟩ >>= fun _ => pure a) :
    Accepts next phrases post (Parser.peek >>= f) := by
  refine .of_forall fun v hv => ?_
  obtain ⟨t, rfl, hgoes⟩ := hf v hv
  exact .peekOnly hgoes

/-- The empty phrase, if the parser gives a value at the token that comes next. -/
theorem Accepts.peekNext {f : Option Word → Parser α}
    (hf : ∀ t, next t → ∃ token, t = some token ∧
      ∀ span, ∃ a, post a ∧ f (some ⟨token, span⟩) = pure a) :
    Accepts next 1 post (Parser.peek >>= f) := by
  refine .peek fun v hv t ht w hw => ?_
  cases (Language.mem_one v).mp hv
  obtain ⟨token, rfl, hgoes⟩ := hf t ht
  obtain ⟨⟨_, span⟩, rfl, rfl⟩ := Option.map_eq_some_iff.mp hw
  obtain ⟨a, ha, hgoes⟩ := hgoes span
  exact hgoes ▸ accepts_pure ha

/-- What is read says more about the value that is given. -/
theorem Accepts.and_reads {texts : α → Language Token} {post' : α → Prop}
    (h : Accepts next phrases post p) (hr : Reads texts p)
    (himp : ∀ w ∈ phrases, ∀ a, w ∈ texts a → post' a) : Accepts next phrases post' p := by
  intro c used rest hc hmem hnext
  obtain ⟨a, c', _, hpasses⟩ := h c used rest hc hmem hnext
  refine ⟨a, c', himp _ hmem a ?_, hpasses⟩
  rcases hr c with ⟨used', b, c'', hread, hpasses'⟩ | hreports
  · cases hpasses.run.symm.trans hpasses'.run
    rwa [List.append_cancel_right (hpasses.rest.symm.trans hpasses'.rest)]
  · rw [Reports, hpasses.run, hpasses.faults] at hreports
    exact absurd hreports (Nat.lt_irrefl _)

theorem accepts_expect (token : Token) : Accepts next {[token]} Any (expect token) :=
  .peekOnly fun span => ⟨span, trivial, if_pos rfl⟩

theorem Accepts.ifAccept {sign : Punct} {yes no : Parser α} (h : Accepts next phrases post yes) :
    Accepts next ({[.punct sign]} * phrases) post
      (accept sign >>= fun taken => if taken = true then yes else no) := by
  have haccept : Accepts Any {[.punct sign]} (· = true) (accept sign) :=
    .peekOnly fun _ => ⟨true, rfl, if_pos rfl⟩
  refine haccept.seq fun taken htaken => ?_
  rwa [if_pos htaken]

theorem accepts_accept_not (sign : Punct) :
    Accepts (· ≠ some (.punct sign)) 1 (· = false) (accept sign) := by
  refine .peek fun v hv t hne w hw => ?_
  cases (Language.mem_one v).mp hv
  split
  · rename_i other span
    have hother : sign ≠ other := fun h => hne (h ▸ hw.symm)
    rw [if_neg hother]
    exact accepts_pure rfl
  · exact accepts_pure rfl

theorem Accepts.ifNotAccept {sign : Punct} {yes : Parser α} {a : α}
    (hnext : ∀ t, next t → t ≠ some (.punct sign)) (ha : post a) :
    Accepts next 1 post (accept sign >>= fun taken => if taken = true then yes else pure a) := by
  rw [← mul_one (1 : Language Token)]
  refine (accepts_accept_not sign).bind (fun taken htaken => ?_) (leads_one.imp hnext)
  rw [htaken]
  exact accepts_pure ha

end Accepting

/-! ### Loops -/

section Loops
variable {body : σ → Parser (Turn σ β)} {next : Option Token → Prop} {post : β → Prop}
  {phrases further : Language Token} {s : σ}

/-- Rounds of a loop over words, to its end. -/
inductive Turns (body : σ → Parser (Turn σ β)) : σ → List Word → β → Cursor → Cursor → Prop where
  | done {s : σ} {b : β} {used : List Word} {c c' : Cursor} :
      Passes (body s) used (.done b) c c' → Turns body s used b c c'
  | again {s s' : σ} {b : β} {used more : List Word} {c c' c'' : Cursor} : used ≠ [] →
      Passes (body s) used (.again s') c c' → Turns body s' more b c' c'' →
      Turns body s (used ++ more) b c c''

theorem Turns.passes_loopFor {s : σ} {b : β} {used : List Word} {c c' : Cursor}
    (h : Turns body s used b c c') {rounds : Nat} (hlt : used.length < rounds) :
    Passes (loopFor body rounds s) used b c c' := by
  induction h generalizing rounds with
  | @done s b used c c' hpasses =>
    obtain ⟨rounds, rfl⟩ := Nat.exists_eq_add_one_of_ne_zero (Nat.ne_of_gt (Nat.zero_lt_of_lt hlt))
    have hboth : Passes (loopFor body (rounds + 1) s) (used ++ []) b c c' :=
      hpasses.bind (passes_pure b c')
    rwa [List.append_nil] at hboth
  | @again s s' b used more c c' c'' hne hpasses _ ih =>
    obtain ⟨rounds, rfl⟩ := Nat.exists_eq_add_one_of_ne_zero (Nat.ne_of_gt (Nat.zero_lt_of_lt hlt))
    refine hpasses.bind (ih ?_)
    have := List.length_pos_of_ne_nil hne
    rw [List.length_append] at hlt
    omega

theorem Turns.rest {s : σ} {b : β} {used : List Word} {c c' : Cursor}
    (h : Turns body s used b c c') : c.rest = used ++ c'.rest :=
  (h.passes_loopFor (Nat.lt_succ_self _)).rest

theorem Turns.passes_loop {s : σ} {b : β} {used : List Word} {c c' : Cursor}
    (h : Turns body s used b c c') : Passes (Parser.loop body s) used b c c' := by
  have hlt : used.length < c.limit := by
    have hlimit := c.length_rest_lt
    rw [h.rest, List.length_append] at hlimit
    omega
  have hpasses := h.passes_loopFor hlt
  exact ⟨hpasses.run, hpasses.rest, hpasses.faults⟩

/-- From this state, a loop makes its rounds over every phrase of a language. -/
def AcceptsTurns (next : Option Token → Prop) (phrases : Language Token) (post : β → Prop)
    (body : σ → Parser (Turn σ β)) (s : σ) : Prop :=
  ∀ (c : Cursor) used rest, c.rest = used ++ rest → tokens used ∈ phrases →
    next (tokens rest).head? → ∃ b c', post b ∧ Turns body s used b c c'

theorem AcceptsTurns.add (h : AcceptsTurns next phrases post body s)
    (h' : AcceptsTurns next further post body s) :
    AcceptsTurns next (phrases + further) post body s := by
  intro c used rest hc hmem hnext
  rcases hmem with hmem | hmem
  · exact h c used rest hc hmem hnext
  · exact h' c used rest hc hmem hnext

theorem acceptsTurns_last (h : Accepts next phrases (Ends post) (body s)) :
    AcceptsTurns next phrases post body s := by
  intro c used rest hc hmem hnext
  obtain ⟨_, c', ⟨b, rfl, hb⟩, hpasses⟩ := h c used rest hc hmem hnext
  exact ⟨b, c', hb, .done hpasses⟩

theorem AcceptsTurns.again {inv : σ → Prop} {before : Option Token → Prop}
    (h : Accepts before phrases (GoesOn inv) (body s)) (hne : [] ∉ phrases)
    (hfurther : ∀ s', inv s' → AcceptsTurns next further post body s')
    (hbefore : Leads next further before) :
    AcceptsTurns next (phrases * further) post body s := by
  intro c words rest hc hmem hnext
  obtain ⟨u, hu, v, hv, huv⟩ := Language.mem_mul.mp hmem
  obtain ⟨used, more, rfl, rfl, rfl⟩ := tokens_eq_append_iff.mp huv.symm
  rw [List.append_assoc] at hc
  have hhead : before (tokens (more ++ rest)).head? := by
    rw [tokens_append, List.head?_append]
    exact hbefore _ hv _ hnext
  obtain ⟨_, c', ⟨s', rfl, hs'⟩, hpasses⟩ := h c used (more ++ rest) hc hu hhead
  obtain ⟨b, c'', hb, hturns⟩ := hfurther s' hs' c' more rest (hpasses.rest_eq hc) hv hnext
  exact ⟨b, c'', hb, .again (fun hnil => hne (by simpa [hnil] using hu)) hpasses hturns⟩

/-- Over a repeated phrase, rounds go on as long as they keep an invariant. -/
theorem AcceptsTurns.kstar {inv : σ → Prop} {before : Option Token → Prop}
    (h : ∀ s, inv s → Accepts before phrases (GoesOn inv) (body s)) (hne : [] ∉ phrases)
    (hphrases : Leads Any phrases before)
    (hfurther : ∀ s, inv s → AcceptsTurns next further post body s)
    (hbefore : Leads next further before) (hs : inv s) :
    AcceptsTurns next (phrases∗ * further) post body s := by
  -- The number of rounds is not known, so that the induction is on the power of the phrase.
  have hpow : ∀ n s, inv s → AcceptsTurns next (phrases ^ n * further) post body s := by
    intro n
    induction n with
    | zero => simpa using hfurther
    | succ n ih =>
      intro s hs
      rw [pow_succ', mul_assoc]
      have hle : phrases ^ n * further ≤ phrases∗ * further := mul_le_mul_left pow_le_kstar _
      exact .again (h s hs) hne ih fun v hv => hphrases.kstar_mul hne hbefore v (hle hv)
  intro c used rest hc hmem hnext
  rw [Language.kstar_eq_iSup_pow, Language.iSup_mul] at hmem
  obtain ⟨n, hn⟩ := Language.mem_iSup.mp hmem
  exact hpow n s hs c used rest hc hn hnext

theorem AcceptsTurns.loop (h : AcceptsTurns next phrases post body s) :
    Accepts next phrases post (Parser.loop body s) := by
  intro c used rest hc hmem hnext
  obtain ⟨b, c', hb, hturns⟩ := h c used rest hc hmem hnext
  exact ⟨b, c', hb, hturns.passes_loop⟩

/-- A loop accepts repeated phrases and then a last one. -/
theorem Accepts.loop (inv : σ → Prop) (before : Option Token → Prop)
    (h : ∀ s, inv s → Accepts before phrases (GoesOn inv) (body s))
    (hlast : ∀ s, inv s → Accepts next further (Ends post) (body s)) (hne : [] ∉ phrases)
    (hphrases : Leads Any phrases before) (hbefore : Leads next further before) (hs : inv s) :
    Accepts next (phrases∗ * further) post (Parser.loop body s) :=
  (AcceptsTurns.kstar h hne hphrases (fun s hs => acceptsTurns_last (hlast s hs)) hbefore hs).loop

theorem Accepts.loop_any (h : ∀ s, Accepts Any phrases (GoesOn Any) (body s))
    (hlast : ∀ s, Accepts next further (Ends post) (body s)) (hne : [] ∉ phrases) (s : σ) :
    Accepts next (phrases∗ * further) post (Parser.loop body s) :=
  .loop Any Any (fun s _ => h s) (fun s _ => hlast s) hne leads_any leads_any trivial

/-- A round that goes on with what another parser gives. -/
theorem Accepts.peekGoesOn {inv : σ → Prop} {post : α → Prop} {p : Parser α}
    {f : Option Word → Parser (Turn σ β)} (hp : Accepts next phrases post p)
    (hf : ∀ v ∈ phrases, ∃ t, v.head? = some t ∧ ∀ span, ∃ g : α → σ,
      f (some ⟨t, span⟩) = (p >>= fun a => pure (.again (g a))) ∧ ∀ a, inv (g a)) :
    Accepts next phrases (GoesOn inv) (Parser.peek >>= f) := by
  refine .peekWord fun v hv => ?_
  obtain ⟨t, hhead, hgoes⟩ := hf v hv
  refine ⟨t, hhead, fun span => ?_⟩
  obtain ⟨g, hgoes, hg⟩ := hgoes span
  rw [hgoes]
  exact hp.andPure fun a _ => ⟨g a, rfl, hg a⟩

end Loops

end Protobuf.Parser

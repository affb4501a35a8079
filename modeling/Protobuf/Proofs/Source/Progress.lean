import Protobuf.Proofs.Source.Exactness
import Protobuf.Proofs.Source.LexicalFaults

/-! Parsing comes to an end by itself.

Since all parsers are orderly, the bounds on loops and nesting make no difference: a loop does what
it would do without one (`Iterates`), and a message is read by the parser that reads the messages in
it (`message_unfold`).

`parse_progresses`: whatever the text, the rounds of each loop pass over words until it ends. -/
namespace Protobuf.Parser

variable {α β σ : Type} {body : σ → Parser (Turn σ β)}

/-! ### Loops without a bound -/

/-- So many rounds from this state and cursor, with this outcome: the loop without a bound. -/
inductive Iterates (body : σ → Parser (Turn σ β)) :
    Nat → σ → Cursor → Option β × Cursor → Prop where
  | fails {s : σ} {c c' : Cursor} : body s c = (none, c') → Iterates body 1 s c (none, c')
  | done {s : σ} {c c' : Cursor} {b : β} : body s c = (some (.done b), c') →
      Iterates body 1 s c (some b, c')
  | again {n : Nat} {s s' : σ} {c c' : Cursor} {outcome : Option β × Cursor} :
      body s c = (some (.again s'), c') → Iterates body n s' c' outcome →
        Iterates body (n + 1) s c outcome

/-- There are no more rounds than words, but for the last one. -/
theorem iterates_loopFor (huses : ∀ s c s', (body s c).1 = some (.again s') →
    (body s c).2.rest.length < c.rest.length) {rounds : Nat} {c : Cursor}
    (hlt : c.rest.length < rounds) (s : σ) :
    ∃ n ≤ c.rest.length + 1, Iterates body n s c (loopFor body rounds s c) := by
  induction rounds generalizing c s with
  | zero => exact absurd hlt (Nat.not_lt_zero _)
  | succ rounds ih =>
    have hless := huses s c
    rw [loopFor, bind_run]
    cases hrun : body s c with
    | mk turn c' =>
      rw [hrun] at hless
      cases turn with
      | none => exact ⟨1, Nat.le_add_left .., .fails hrun⟩
      | some turn =>
        cases turn with
        | done b => exact ⟨1, Nat.le_add_left .., .done hrun⟩
        | again s' =>
          have hless : c'.rest.length < c.rest.length := hless s' rfl
          obtain ⟨n, hn, hiterates⟩ := ih (Nat.lt_of_lt_of_le hless (Nat.le_of_lt_succ hlt)) s'
          exact ⟨n + 1, Nat.succ_le_succ (hn.trans hless), .again hrun hiterates⟩

theorem iterates_loop (huses : ∀ s c s', (body s c).1 = some (.again s') →
    (body s c).2.rest.length < c.rest.length) (s : σ) (c : Cursor) :
    ∃ n ≤ c.rest.length + 1, Iterates body n s c (loop body s c) :=
  iterates_loopFor huses c.length_rest_lt s

/-- The rounds of a loop that reads something: one that gives a turn has passed over a word, and one
that fails has added a fault to those of the lexemes. So the loop ends after no more rounds than
there are words, but for the last one. -/
structure Progresses (body : σ → Parser (Turn σ β)) : Prop where
  round (s : σ) (c : Cursor) :
    (∃ turn c' used, body s c = (some turn, c') ∧ used ≠ [] ∧ c.rest = used ++ c'.rest) ∨
      ∃ c' more, body s c = (none, c') ∧ more ≠ [] ∧ c'.allFaults.Perm (c.allFaults ++ more)
  ends (s : σ) (c : Cursor) : ∃ n ≤ c.rest.length + 1, Iterates body n s c (loop body s c)

/-- A parser that reads and fails has added a fault. -/
theorem Reads.faults_of_none {phrases : α → Language Token} {spends : α → Prop} {p : Parser α}
    (hreads : Reads phrases p) (horderly : Orderly spends p) {c : Cursor} (hnone : (p c).1 = none) :
    ∃ more, more ≠ [] ∧ (p c).2.allFaults.Perm (c.allFaults ++ more) := by
  obtain ⟨more, hmore, _⟩ := (horderly c).faults
  refine ⟨more, ?_, hmore⟩
  rintro rfl
  rcases hreads c with ⟨used, a, c', _, hpasses⟩ | hreports
  · rw [hpasses.run] at hnone
    cases hnone
  · rw [Reports, hmore.length_eq, List.append_nil] at hreports
    exact Nat.lt_irrefl _ hreports

theorem progresses_of_reads {phrases : σ → Turn σ β → Language Token}
    (horderly : ∀ s, Orderly Any (body s)) (hreads : ∀ s, Reads (phrases s) (body s)) :
    Progresses body where
  round s c := by
    cases hturn : (body s c).1 with
    | none =>
      obtain ⟨more, hne, hmore⟩ := (hreads s).faults_of_none (horderly s) hturn
      exact .inr ⟨_, more, Prod.ext hturn rfl, hne, hmore⟩
    | some turn =>
      obtain ⟨used, hne, hused⟩ := (horderly s c).exists_used hturn trivial
      exact .inl ⟨turn, _, used, Prod.ext hturn rfl, hne, hused⟩
  ends := iterates_loop fun s c s' hagain => (horderly s c).spent _ hagain trivial

/-! ### Parsers that agree -/

/-- It is enough that the second parsers agree where the first one can stop. -/
theorem OrderlyAt.bind_congr {spends : α → Prop} {p : Parser α} {f g : α → Parser β} {c : Cursor}
    (hp : OrderlyAt spends p c) (h : ∀ a c', c'.rest <:+ c.rest →
      (spends a → c'.rest.length < c.rest.length) → f a c' = g a c') :
    (p >>= f) c = (p >>= g) c := by
  have hrest := hp.rest
  have hspent := hp.spent
  rw [bind_run, bind_run]
  cases hrun : p c with
  | mk value c' =>
    rw [hrun] at hrest hspent
    cases value with
    | none => rfl
    | some a => exact h a c' hrest (hspent a rfl)

theorem loopFor_congr {other : σ → Parser (Turn σ β)} {bound : Nat}
    (hbody : ∀ s c, c.rest.length ≤ bound → OrderlyAt (GoesOn Any) (body s) c)
    (h : ∀ s c, c.rest.length ≤ bound → body s c = other s c) {c : Cursor}
    (hbound : c.rest.length ≤ bound) (rounds : Nat) (s : σ) :
    loopFor body rounds s c = loopFor other rounds s c := by
  induction rounds generalizing c s with
  | zero => rfl
  | succ rounds ih =>
    have hrest := (hbody s c hbound).rest
    rw [loopFor, loopFor, bind_run, bind_run, ← h s c hbound]
    cases hrun : body s c with
    | mk turn c' =>
      rw [hrun] at hrest
      cases turn with
      | none => rfl
      | some turn =>
        cases turn with
        | done b => rfl
        | again s' => exact ih (hrest.length_le.trans hbound) s'

theorem loop_congr {other : σ → Parser (Turn σ β)} {c : Cursor}
    (hbody : ∀ s c', c'.rest.length ≤ c.rest.length → OrderlyAt (GoesOn Any) (body s) c')
    (h : ∀ s c', c'.rest.length ≤ c.rest.length → body s c' = other s c') (s : σ) :
    loop body s c = loop other s c :=
  loopFor_congr hbody h Nat.le.refl _ s

end Protobuf.Parser

namespace Protobuf.Grammar
open Decl Protobuf.Parser

/-! ### Messages in messages -/

theorem messageRound_congr {e : Edition} {nested other : Parser Decl.Message} {c : Cursor}
    (h : nested c.look = other c.look) (start : Span) (m : Decl.Message) :
    messageRound e nested start m c = messageRound e other start m c := by
  unfold messageRound
  rw [peek_run, peek_run]
  generalize c.rest.head? = w
  -- Only one branch reads a nested message, and it does so at once.
  split <;> first | rfl | rw [bind_run, bind_run, h]

/-- A message, given the parser of the messages in it. -/
def messageOver (e : Edition) (nested : Parser Decl.Message) : Parser Decl.Message := do
  let start ← keyword "message"
  let name ← ident
  let _ ← sign .leftBrace
  messageBody e nested start name

/-- The messages in a message are read after its first word. -/
theorem messageOver_congr {e : Edition} {nested other : Parser Decl.Message} {c : Cursor}
    (hnested : ∀ c' : Cursor, c'.rest.length < c.rest.length → OrderlyAt Any nested c')
    (h : ∀ c' : Cursor, c'.rest.length < c.rest.length → nested c' = other c') :
    messageOver e nested c = messageOver e other c := by
  refine (orderly_keyword "message" c).bind_congr fun start c₁ _ hless => ?_
  refine (orderly_ident c₁).bind_congr fun name c₂ hname _ => ?_
  refine (orderly_sign .leftBrace c₂).bind_congr fun _ c₃ hbody _ => ?_
  have hless : c₃.rest.length < c.rest.length :=
    Nat.lt_of_le_of_lt (hbody.length_le.trans hname.length_le) (hless trivial)
  have hlook : ∀ c' : Cursor, c'.rest.length ≤ c₃.rest.length →
      c'.look.rest.length < c.rest.length := by
    intro c' hc'
    rw [Cursor.look_rest]
    exact Nat.lt_of_le_of_lt hc' hless
  refine loop_congr (fun m c' hc' => ?_) (fun m c' hc' => messageRound_congr ?_ start m) _
  · exact (orderlyAt_messageRound (hnested _ (hlook c' hc')) start m).imp fun _ _ => trivial
  · exact h _ (hlook c' hc')

/-- The number of levels makes no difference, if there are more of them than words. -/
theorem messageUpTo_congr (e : Edition) {depth other : Nat} {c : Cursor}
    (hdepth : c.rest.length < depth) (hother : c.rest.length < other) :
    messageUpTo e depth c = messageUpTo e other c := by
  induction depth generalizing other c with
  | zero => exact absurd hdepth (Nat.not_lt_zero _)
  | succ depth ih =>
    cases other with
    | zero => exact absurd hother (Nat.not_lt_zero _)
    | succ other =>
      refine messageOver_congr (fun c' hc' => ?_) fun c' hc' => ?_
      · exact (orderlyAt_messageUpTo e (by omega)).1
      · exact ih (by omega) (by omega)

/-- A message is read by the parser that reads the messages in it. -/
theorem message_unfold (e : Edition) : message e = messageOver e (message e) := by
  funext c
  have hlimit : c.rest.length < c.lexemes.length + 2 := c.length_rest_lt
  refine messageOver_congr (fun c' hc' => ?_) fun c' hc' => ?_
  · exact (orderlyAt_messageUpTo e (by omega)).1
  · exact messageUpTo_congr e (by omega) c'.length_rest_lt

/-! ### Files -/

/-- A round of the file passes over a word and goes on. Where no words are left it is the last. -/
theorem statementOrSkip_progresses (f : File) (c : Cursor) :
    (c.rest = [] ∧ statementOrSkip f c = (some (.done f), ⟨none, [], c.allFaults⟩)) ∨
      ∃ g c' used, statementOrSkip f c = (some (.again g), c') ∧ used ≠ [] ∧
        c.rest = used ++ c'.rest := by
  by_cases hc : c.rest = []
  · exact .inl ⟨hc, statementOrSkip_of_rest_nil f hc⟩
  · obtain ⟨turn, hturn⟩ := succeeds_statementOrSkip f c
    have hgoesOn := givesAt_statementOrSkip f hc turn hturn
    obtain ⟨used, hne, hused⟩ := (orderly_statementOrSkip f c).exists_used hturn hgoesOn
    obtain ⟨g, rfl, _⟩ := hgoesOn
    exact .inr ⟨g, _, used, Prod.ext hturn rfl, hne, hused⟩

theorem internal_notMem_read (text : String) (reason : String) :
    .internal reason ∉ (read text).2 := by
  by_cases hsize : maxSize < text.utf8ByteSize
  · rw [read, if_pos hsize]
    intro hmem
    cases List.mem_singleton.mp hmem
  · obtain ⟨f, faults, more, hread, hperm, hproper⟩ := read_runs (Nat.le_of_not_lt hsize)
    rw [hread, hperm.mem_iff]
    intro hmem
    rcases List.mem_append.mp hmem with hmem | hmem
    · cases Lexer.isFoundInToken_of_mem_faults hmem
    · cases (hproper _ hmem).internal

/-- A text is parsed if it has no faults; a report holds them all. -/
theorem parse_outcome (name text : String) :
    match parse name text with
    | .ok f => read text = (some f, [])
    | .error e => (read text).2 ≠ [] ∧ e.all.Perm (read text).2 := by
  have hvalue : (read text).2 = [] → ∃ f, read text = (some f, []) := by
    intro hnil
    obtain ⟨hsize, _⟩ := (read_faults_eq_nil_iff text).mp hnil
    obtain ⟨f, faults, _, hread, _⟩ := read_runs hsize
    rw [hread] at hnil
    exact ⟨f, hread.trans (congrArg (some f, ·) hnil)⟩
  rw [parse]
  cases hread : read text with
  | mk result faults =>
    rw [hread] at hvalue
    dsimp only
    cases he : SourceError.ofFaults? name text faults with
    | none =>
      obtain ⟨f, hf⟩ := hvalue (Report.ofSorted?_mergeSort_eq_none_iff.mp he)
      cases hf
      rfl
    | some e =>
      have hperm := SourceError.all_perm he
      refine ⟨?_, hperm⟩
      rintro rfl
      exact absurd hperm.eq_nil (List.cons_ne_nil _ _)

/-- After the language level a file is read in finitely many rounds. -/
theorem file_iterates (c : Cursor) : ∃ level c' n, editionOrDefault c = (some level, c') ∧
    n ≤ c'.rest.length + 1 ∧ Iterates statementOrSkip n (File.empty level) c' (file c) := by
  obtain ⟨level, hlevel⟩ := succeeds_editionOrDefault c
  have hrun : editionOrDefault c = (some level, (editionOrDefault c).2) := Prod.ext hlevel rfl
  have hfile : file c = loop statementOrSkip (File.empty level) (editionOrDefault c).2 := by
    rw [file, bind_run, hrun]
  have huses : ∀ f c g, (statementOrSkip f c).1 = some (.again g) →
      (statementOrSkip f c).2.rest.length < c.rest.length :=
    fun f c g hagain => (orderly_statementOrSkip f c).spent _ hagain ⟨g, rfl, trivial⟩
  obtain ⟨n, hn, hiterates⟩ := iterates_loop huses (File.empty level) (editionOrDefault c).2
  rw [hfile]
  exact ⟨level, _, n, hrun, hn, hiterates⟩

/-- **Parsing comes to an end by itself, with a file or with faults.** Whatever the text,

* no internal fault is recorded: no word is passed over that was not looked at, and no loop and no
  nesting of messages reaches its bound;
* the text is parsed if there are no faults, and if not, the report holds them all;
* the statements are read in finitely many rounds, each of which, also one that recovers from a
  fault, passes over a word or ends where the words do, when all lexemes are taken, and a statement
  that fails has added a fault to those of the lexemes;
* messages, at whatever depth, are read by a loop that uses the same parser for those in it;
* a round of a message, an enum, a list of options or a skipped block passes over a word, or ends
  the loop with a fault, so that these loops too end after finitely many rounds. -/
theorem parse_progresses (name text : String) :
    (∀ reason, .internal reason ∉ (read text).2) ∧
      (match parse name text with
        | .ok f => read text = (some f, [])
        | .error e => (read text).2 ≠ [] ∧ e.all.Perm (read text).2) ∧
      (∃ level c n, editionOrDefault (.start text) = (some level, c) ∧ n ≤ c.rest.length + 1 ∧
        Iterates statementOrSkip n (File.empty level) c (file (.start text))) ∧
      (∀ f c, (c.rest = [] ∧ statementOrSkip f c = (some (.done f), ⟨none, [], c.allFaults⟩)) ∨
        ∃ g c' used, statementOrSkip f c = (some (.again g), c') ∧ used ≠ [] ∧
          c.rest = used ++ c'.rest) ∧
      (∀ f c, (statement f c).1 = none →
        ∃ more, more ≠ [] ∧ (statement f c).2.allFaults.Perm (c.allFaults ++ more)) ∧
      (∀ e, message e = do
        let start ← keyword "message"
        let name ← ident
        let _ ← sign .leftBrace
        loop (messageRound e (message e) start) ⟨name, [], [], [], [], [], start⟩) ∧
      (∀ e start, Progresses (messageRound e (message e) start)) ∧
      (∀ start, Progresses (enumRound start)) ∧ Progresses settingListRound ∧
      Progresses blockRound := by
  refine ⟨internal_notMem_read text, parse_outcome name text, file_iterates _,
    statementOrSkip_progresses,
    fun f c => (reads_statement f).faults_of_none (orderly_statement f), message_unfold,
    fun e start => ?_, fun start => ?_, ?_, ?_⟩
  · exact progresses_of_reads
      (fun m c => orderlyAt_messageRound ((begins_message e).orderly c.look) start m)
      (reads_messageRound e (reads_message e) start)
  · exact progresses_of_reads (orderly_enumRound start) (reads_enumRound start)
  · exact progresses_of_reads orderly_settingListRound reads_settingListRound
  · exact progresses_of_reads orderly_blockRound reads_blockRound

end Protobuf.Grammar

import Protobuf.Proofs.Source.Messages

/-! Files.

A file is a heading, if it has one, and statements. Whether a package may follow depends on what was
read before: a second one is reported. Services are passed over unread. -/
namespace Protobuf.Grammar
open Decl Protobuf.Parser
open scoped Computability

variable {next : Option Token → Prop}

/-! ### Packages and imports -/

theorem reads_package : Reads (fun _ => Phrase.package) package := by
  rw [Phrase.package, mul_assoc]
  exact (reads_keyword "package").seq fun _ => .seq reads_dotted fun _ =>
    (reads_sign .semicolon).andReturn fun _ => ⟨_, rfl⟩

theorem reads_importKind :
    Reads (fun _ => 1 + Phrase.keyword "public" + Phrase.keyword "weak") importKind := by
  intro c
  refine .peek ?_
  split
  · rename_i span h
    exact readsAt_advance_pure h (.inr rfl)
  · rename_i span h
    exact readsAt_advance_pure h (.inl (.inr rfl))
  · exact readsAt_pure (.inl (.inl rfl))
  · exact reads_unexpected _ _

theorem reads_importStatement : Reads (fun _ => Phrase.importStatement) importStatement := by
  simp only [Phrase.importStatement, mul_assoc]
  exact (reads_keyword "import").seq fun _ => .seq reads_importKind fun _ =>
    .seq reads_text fun _ => (reads_sign .semicolon).andReturn fun _ => ⟨_, rfl⟩

theorem accepts_package : Accepts next Phrase.package Any package := by
  rw [Phrase.package, mul_assoc]
  exact (accepts_keyword "package").seq fun _ _ => accepts_dotted.bind
    (fun _ _ => (accepts_sign .semicolon).andPure fun _ _ => trivial) (leads_token nofun)

theorem head?_of_mem_package {w : List Token} (h : w ∈ Phrase.package) :
    w.head? = some (.ident "package") := by
  rw [Phrase.package, mul_assoc] at h
  exact head?_of_mem_token_mul h

/-- What follows the kind of an import. -/
def IsString (t : Option Token) : Prop :=
  ∃ content, t = some (.string content)

theorem leads_text_mul (rest : Language Token) : Leads next (Phrase.text * rest) IsString := by
  intro v hv t _
  obtain ⟨u, ⟨content, _, _, _, rfl⟩, v, _, rfl⟩ := Language.mem_mul.mp hv
  exact ⟨content, rfl⟩

theorem accepts_importKind :
    Accepts IsString (1 + Phrase.keyword "public" + Phrase.keyword "weak") Any importKind := by
  refine .add (.add (.peekNext fun t ht => ?_) (.peekOnly fun _ => ⟨_, trivial, rfl⟩))
    (.peekOnly fun _ => ⟨_, trivial, rfl⟩)
  obtain ⟨content, rfl⟩ := ht
  exact ⟨_, rfl, fun _ => ⟨_, trivial, rfl⟩⟩

theorem accepts_importStatement : Accepts next Phrase.importStatement Any importStatement := by
  simp only [Phrase.importStatement, mul_assoc]
  exact (accepts_keyword "import").seq fun _ _ => accepts_importKind.bind
    (fun _ _ => (accepts_string _).seq fun _ _ => (accepts_sign .semicolon).andPure
      fun _ _ => trivial) (leads_text_mul _)

theorem head?_of_mem_importStatement {w : List Token} (h : w ∈ Phrase.importStatement) :
    w.head? = some (.ident "import") := by
  simp only [Phrase.importStatement, mul_assoc] at h
  exact head?_of_mem_token_mul h

/-! ### The language level -/

theorem reads_levelNamed (name : String) (span : Span) :
    Reads (fun e => provided (name = e.name)) (levelNamed name span) := by
  intro c
  unfold levelNamed
  split
  · rename_i h
    exact readsAt_pure ⟨rfl, h⟩
  · split
    · rename_i h
      exact readsAt_pure ⟨rfl, h⟩
    · exact readsAt_report keeps_fail

/-- A heading is read as the level that it declares. -/
theorem reads_edition : Reads Phrase.heading edition := by
  have hstop : ∀ level : Edition,
      Reads (fun e => {w | w ∈ Phrase.sign .semicolon ∧ e = level})
        (sign .semicolon >>= fun _ => pure level) :=
    fun level => ((reads_sign .semicolon).andReturn fun _ => ⟨_, rfl⟩).and
      (.bind fun _ => gives_pure rfl)
  have hlevel : ∀ r : String × Span,
      Reads (fun e => provided (r.1 = e.name) * Phrase.sign .semicolon)
        (levelNamed r.1 r.2 >>= fun level => sign .semicolon >>= fun _ => pure level) := by
    intro r
    refine (reads_levelNamed _ _).bind hstop fun level e w hw => ?_
    obtain ⟨u, hu, v, ⟨hv, rfl⟩, rfl⟩ := Language.mem_mul.mp hw
    exact Language.append_mem_mul hu hv
  have hname : Reads (fun e => Phrase.textThat (· = e.name) * Phrase.sign .semicolon)
      (string >>= fun r =>
        levelNamed r.1 r.2 >>= fun level => sign .semicolon >>= fun _ => pure level) := by
    refine .bind reads_string hlevel fun r e w hw => ?_
    rw [← mul_assoc] at hw
    obtain ⟨u, hu, v, hv, rfl⟩ := Language.mem_mul.mp hw
    obtain ⟨⟨content, value, hdecode, rfl, rfl⟩, hname⟩ := mem_mul_provided_iff.mp hu
    exact Language.append_mem_mul ⟨content, r.1, hdecode, hname, rfl⟩ hv
  refine (reads_keyword "syntax").bind
    (fun _ => (reads_sign .equals).bind (fun _ => hname) fun _ _ => le_rfl) fun _ e => ?_
  simp only [Phrase.heading, mul_assoc]
  exact le_rfl

theorem reads_editionOrDefault :
    Reads (fun e => Phrase.heading e + provided (e = .proto2)) editionOrDefault := by
  intro c
  refine .peek ?_
  split
  · refine ((reads_edition _).recover (fun _ => rfl) ?_).mono fun _ _ hw => .inl hw
    exact (reads_skipTo _).keeps.bind fun _ => keeps_pure _
  · exact readsAt_pure (.inr ⟨rfl, rfl⟩)

theorem levelNamed_name (e : Edition) (span : Span) : levelNamed e.name span = pure e := by
  cases e <;> rfl

theorem accepts_edition (e : Edition) : Accepts next (Phrase.heading e) (· = e) edition := by
  simp only [Phrase.heading, mul_assoc]
  refine (accepts_keyword "syntax").seq fun _ _ => (accepts_sign .equals).seq fun _ _ =>
    (accepts_string _).seq fun r hr => ?_
  obtain ⟨name, span⟩ := r
  dsimp only at hr ⊢
  rw [hr, levelNamed_name, pure_bind]
  exact (accepts_sign .semicolon).andPure fun _ _ => rfl

theorem accepts_editionOrDefault_heading (e : Edition) :
    Accepts next (Phrase.heading e) (· = e) editionOrDefault := by
  have hread : Accepts next (Phrase.heading e) (· = e) (recover edition >>= fun value =>
      value.elim (do skipTo statementWords; return .proto2) pure) :=
    (accepts_edition e).recover fun _ => rfl
  refine .peekHead hread fun v hv => ?_
  simp only [Phrase.heading, mul_assoc] at hv
  refine ⟨_, head?_of_mem_token_mul hv, fun _ => congrArg (recover edition >>= ·) ?_⟩
  funext value
  cases value <;> rfl

/-- What comes first in a file without a heading. -/
def NotHeading (t : Option Token) : Prop :=
  t ≠ some (.ident "syntax")

theorem accepts_editionOrDefault_nothing :
    Accepts NotHeading 1 (· = .proto2) editionOrDefault := by
  refine .peek fun v hv t ht w hw => ?_
  cases (Language.mem_one v).mp hv
  split
  · exact absurd hw.symm ht
  · exact accepts_pure rfl

/-! ### Statements -/

theorem reads_service : Reads (fun _ => Phrase.service (Phrase.opened + Phrase.unopened)) service :=
  (reads_keyword "service").seq fun _ => .seq reads_ident fun _ => reads_skipBlock

/-- The rounds of a file: statements, of which one may be a package, and the end. Services are
passed over. -/
def statementTurns (f : File) : Turn File File → Language Token
  | .again g => {w | g.edition = f.edition ∧
      ((w ∈ Phrase.statement f.edition ∨
          w ∈ Phrase.service (Phrase.opened + Phrase.unopened)) ∧ g.package = f.package ∨
        w ∈ Phrase.package ∧ f.package = none ∧ g.package.isSome)}
  | .done _ => 1

/-- A second package is reported. -/
theorem reads_addPackage (f : File) (p : Package) :
    Reads (fun g => {w | w ∈ (1 : Language Token) ∧ g.edition = f.edition ∧ f.package = none ∧
      g.package.isSome}) (addPackage f p) := by
  intro c
  unfold addPackage
  split
  · exact readsAt_report (keeps_pure _)
  · rename_i h
    exact readsAt_pure ⟨rfl, rfl, h, rfl⟩

theorem reads_statement (f : File) : Reads (statementTurns f) (statement f) := by
  intro c
  refine .peek ?_
  split
  · exact readsAt_pure rfl
  · rename_i h
    exact readsAt_advance_pure h ⟨rfl, .inl ⟨.inl (.inl (.inl (.inl (.inl rfl)))), rfl⟩⟩
  · exact (reads_importStatement _).andPure fun _ _ hv =>
      ⟨rfl, .inl ⟨.inl (.inl (.inl (.inl (.inr hv)))), rfl⟩⟩
  · have hadd : ∀ p : Package, Reads
        (fun turn : Turn File File => {w | ∃ g, turn = .again g ∧ w ∈ (1 : Language Token) ∧
          g.edition = f.edition ∧ f.package = none ∧ g.package.isSome})
        (addPackage f p >>= fun g => pure (.again g)) :=
      fun p => (reads_addPackage f p).andPure fun g w hw => ⟨g, rfl, hw⟩
    refine (reads_package _).bind hadd fun p turn w hw => ?_
    obtain ⟨u, hu, v, ⟨g, rfl, rfl, hedition, hnone, hsome⟩, rfl⟩ := Language.mem_mul.mp hw
    rw [List.append_nil]
    exact ⟨hedition, .inr ⟨hu, hnone, hsome⟩⟩
  · exact (reads_settingStatement _).andPure fun _ _ hv =>
      ⟨rfl, .inl ⟨.inl (.inl (.inl (.inr hv))), rfl⟩⟩
  · exact (reads_message _ _).andPure fun _ _ hv =>
      ⟨rfl, .inl ⟨.inl (.inl (.inr hv)), rfl⟩⟩
  · exact (reads_enum _).andPure fun _ _ hv => ⟨rfl, .inl ⟨.inl (.inr hv), rfl⟩⟩
  · exact (reads_service _).andPure fun _ v hv => ⟨rfl, .inl ⟨.inr hv, rfl⟩⟩
  · exact readsAt_report (reads_skipBlock.keeps.bind fun _ => keeps_pure _)
  · exact reads_unexpected _ _

theorem nil_notMem_statement (e : Edition) : [] ∉ Phrase.statement e := by
  intro h
  rcases h with (((h | h) | h) | h) | h
  · cases h
  · exact nil_notMem_mul_token _ _ h
  · exact nil_notMem_mul_token _ _ h
  · exact nil_notMem_message e h
  · exact nil_notMem_mul_token _ _ h

theorem nil_notMem_statementTurns {f g : File} : [] ∉ statementTurns f (.again g) := by
  intro h
  rcases h.2 with ⟨h | h, _⟩ | ⟨h, _⟩
  · exact nil_notMem_statement _ h
  · exact nil_notMem_token_mul _ _ h
  · exact nil_notMem_mul_token _ _ h

/-- The statements of a file after those that were read. -/
def statementsAfter (f : File) : Language Token :=
  if f.package = none then Phrase.statements f.edition else (Phrase.statement f.edition)∗

theorem append_mem_statementsAfter {f : File} {u v : List Token}
    (hu : u ∈ Phrase.statement f.edition) (hv : v ∈ statementsAfter f) :
    u ++ v ∈ statementsAfter f := by
  unfold statementsAfter at hv ⊢
  split at hv
  · rw [if_pos (by assumption)]
    exact append_mem_kstar_mul hu hv
  · rw [if_neg (by assumption)]
    exact append_mem_kstar hu hv

theorem mem_of_statementTurns {f g : File} {w : List Token} (h : Rounds statementTurns f w g)
    (hservice : .ident "service" ∉ w) : w ∈ statementsAfter f := by
  induction h with
  | @done f g w hw =>
    cases Language.mem_one w |>.mp hw
    unfold statementsAfter
    split
    · exact mem_kstar_mul _ (.inl rfl)
    · exact Language.nil_mem_kstar _
  | @again f next g w v hw _ ih =>
    rw [List.mem_append, not_or] at hservice
    obtain ⟨hedition, hw⟩ := hw
    have hv := ih hservice.2
    rcases hw with ⟨hw | hw, hpackage⟩ | ⟨hw, hnone, hsome⟩
    · rw [statementsAfter, hedition, hpackage] at hv
      exact append_mem_statementsAfter hw hv
    · obtain ⟨u, rfl, v, _, rfl⟩ := Language.mem_mul.mp hw
      exact absurd List.mem_cons_self hservice.1
    · have hnext : next.package ≠ none := by
        rintro hpackage
        rw [hpackage] at hsome
        cases hsome
      rw [statementsAfter, if_neg hnext, hedition] at hv
      rw [statementsAfter, if_pos hnone]
      exact mem_kstar_mul _ (.inr (Language.append_mem_mul hw hv))

theorem reads_statementOrSkip (f : File) : Reads (statementTurns f) (statementOrSkip f) :=
  fun ws => (reads_statement f ws).recover (fun _ => rfl)
    ((reads_skipTo _).keeps.bind fun _ => keeps_pure _)

/-- A statement is read into the file; its level and its package stay what they are. -/
theorem accepts_statement (f : File) :
    Accepts next (Phrase.statement f.edition)
      (GoesOn fun g => g.edition = f.edition ∧ g.package = f.package) (statement f) := by
  refine .add (.add (.add (.add ?_ ?_) ?_) ?_) ?_
  · exact .peekOnly fun _ => ⟨_, ⟨_, rfl, rfl, rfl⟩, rfl⟩
  · exact .peekGoesOn accepts_importStatement fun v hv =>
      ⟨_, head?_of_mem_importStatement hv, fun _ => ⟨_, rfl, fun _ => ⟨rfl, rfl⟩⟩⟩
  · exact .peekGoesOn accepts_settingStatement fun v hv =>
      ⟨_, head?_of_mem_settingStatement hv, fun _ => ⟨_, rfl, fun _ => ⟨rfl, rfl⟩⟩⟩
  · exact .peekGoesOn (accepts_message f.edition) fun v hv =>
      ⟨_, head?_of_mem_message hv, fun _ => ⟨_, rfl, fun _ => ⟨rfl, rfl⟩⟩⟩
  · exact .peekGoesOn accepts_enum fun v hv =>
      ⟨_, head?_of_mem_enum hv, fun _ => ⟨_, rfl, fun _ => ⟨rfl, rfl⟩⟩⟩

/-- The first package is read into the file. -/
theorem accepts_statement_package {f : File} (hf : f.package = none) :
    Accepts next Phrase.package (GoesOn (·.edition = f.edition)) (statement f) := by
  have hread : Accepts next Phrase.package (GoesOn (·.edition = f.edition))
      (package >>= fun p => addPackage f p >>= fun g => pure (.again g : Turn File File)) := by
    refine .andReturn accepts_package fun p _ =>
      ⟨.again { f with package := some p }, ⟨_, rfl, rfl⟩, ?_⟩
    rw [addPackage, hf]
    rfl
  exact .peekHead hread fun v hv => ⟨_, head?_of_mem_package hv, fun _ => rfl⟩

theorem accepts_statement_end (f : File) : Accepts (· = none) 1 (Ends Any) (statement f) := by
  refine .peek fun v hv t ht w hw => ?_
  cases (Language.mem_one v).mp hv
  cases ht
  cases Option.map_eq_none_iff.mp hw
  exact accepts_pure ⟨f, rfl, trivial⟩

/-- The loop over the statements of a file reads them, with at most one package among them. -/
theorem accepts_statements (e : Edition) :
    Accepts (· = none) (Phrase.statements e) Any (loop statementOrSkip (File.empty e)) := by
  have hround : ∀ f : File, f.edition = e → Accepts Any (Phrase.statement e)
      (GoesOn fun g => g.edition = e ∧ g.package = f.package) (statementOrSkip f) := by
    rintro f rfl
    exact (accepts_statement f).recover fun _ => rfl
  have hend : ∀ f, AcceptsTurns (· = none) 1 Any statementOrSkip f :=
    fun f => acceptsTurns_last ((accepts_statement_end f).recover fun _ => rfl)
  have hmore : ∀ f : File, f.edition = e →
      AcceptsTurns (· = none) (Phrase.statement e)∗ Any statementOrSkip f := by
    intro f hf
    rw [← mul_one (Phrase.statement e)∗]
    refine .kstar (fun g hg => (hround g hg).imp ?_) (nil_notMem_statement e) leads_any
      (fun g _ => hend g) leads_any hf
    rintro _ ⟨g, rfl, hg, _⟩
    exact ⟨g, rfl, hg⟩
  have hpackage : ∀ f : File, f.edition = e ∧ f.package = none →
      AcceptsTurns (· = none) (Phrase.package * (Phrase.statement e)∗) Any statementOrSkip f := by
    rintro f ⟨rfl, hf⟩
    exact .again ((accepts_statement_package hf).recover fun _ => rfl) (nil_notMem_mul_token _ _)
      hmore leads_any
  -- Until a package is read there is none, so that the first one is not a second.
  refine (AcceptsTurns.kstar (fun f hf => (hround f hf.1).imp ?_) (nil_notMem_statement e)
    leads_any (fun f hf => (hend f).add (hpackage f hf)) leads_any ⟨rfl, rfl⟩).loop
  rintro _ ⟨g, rfl, hg, hnone⟩
  exact ⟨g, rfl, hg, hnone.trans hf.2⟩

theorem leads_statements (e : Edition) : Leads (· = none) (Phrase.statements e) NotHeading := by
  have hstatement : Leads Any (Phrase.statement e) NotHeading := by
    refine .add (.add (.add (.add ?_ ?_) ?_) ?_) ?_
    · exact leads_token nofun
    · exact leads_of_head? (fun _ => head?_of_mem_importStatement) (by simp [NotHeading])
    · exact leads_of_head? (fun _ => head?_of_mem_settingStatement) (by simp [NotHeading])
    · exact leads_of_head? (fun _ => head?_of_mem_message) (by simp [NotHeading])
    · exact leads_of_head? (fun _ => head?_of_mem_enum) (by simp [NotHeading])
  have hpackage : Leads (· = none) (Phrase.package * (Phrase.statement e)∗) NotHeading := by
    rw [Phrase.package, mul_assoc, mul_assoc]
    exact leads_token_mul (by simp [NotHeading])
  refine hstatement.kstar_mul (nil_notMem_statement e) (.add (leads_one.imp ?_) hpackage)
  rintro _ rfl
  nofun

/-! ### Whole files -/

/-- A file is read as its heading, if it has one, and rounds of statements. -/
theorem reads_rounds : Reads (fun f => {w | ∃ level u v, w = u ++ v ∧
    u ∈ Phrase.heading level + provided (level = .proto2) ∧
      Rounds statementTurns (File.empty level) v f}) file := by
  have hloop := fun level => Reads.loop reads_statementOrSkip
    (fun _ _ => nil_notMem_statementTurns) (File.empty level)
  refine .bind reads_editionOrDefault hloop fun level f w hw => ?_
  obtain ⟨u, hu, v, hv, rfl⟩ := Language.mem_mul.mp hw
  exact ⟨level, u, v, rfl, hu, hv⟩

/-- What is read of a file without services is a file. -/
theorem reads_file : Reads (fun _ => {w | .ident "service" ∉ w → w ∈ Phrase.file}) file := by
  refine .mono reads_rounds fun f w hw hservice => ?_
  obtain ⟨level, u, v, rfl, hu, hv⟩ := hw
  rw [List.mem_append, not_or] at hservice
  have hv : v ∈ Phrase.statements level := mem_of_statementTurns hv hservice.2
  rcases hu with hu | ⟨rfl, rfl⟩
  · cases level with
    | proto2 => exact .inl (.inr (Language.append_mem_mul hu hv))
    | proto3 => exact .inr (Language.append_mem_mul hu hv)
  · exact .inl (.inl hv)

/-- As long as there are words, reading goes on. -/
theorem givesAt_statement (f : File) {c : Cursor} (hc : c.rest ≠ []) :
    GivesAt (GoesOn Any) (statement f) c := by
  refine .peek ?_
  have hgoesOn : ∀ (β : Type) (p : Parser β) (g : β → File), Gives (GoesOn Any)
      (p >>= fun b => pure (.again (g b) : Turn File File)) :=
    fun _ _ _ => .bind fun _ => gives_pure ⟨_, rfl, trivial⟩
  split
  · rename_i h
    exact absurd (List.head?_eq_none_iff.mp h) hc
  · exact hgoesOn _ _ _ _
  · exact hgoesOn _ _ _ _
  · exact Gives.bind (fun _ => hgoesOn _ _ _) _
  · exact hgoesOn _ _ _ _
  · exact hgoesOn _ _ _ _
  · exact hgoesOn _ _ _ _
  · exact hgoesOn _ _ _ _
  · exact Gives.bind (fun _ => hgoesOn _ _ _) _
  · exact gives_unexpected _ _

theorem givesAt_statementOrSkip (f : File) {c : Cursor} (hc : c.rest ≠ []) :
    GivesAt (GoesOn Any) (statementOrSkip f) c :=
  (givesAt_statement f hc).recover (fun _ => rfl) (.bind fun _ => gives_pure ⟨f, rfl, trivial⟩)

/-- Where no word is left, the file is done and all lexemes are taken. -/
theorem statementOrSkip_of_rest_nil (f : File) {c : Cursor} (hc : c.rest = []) :
    statementOrSkip f c = (some (.done f), ⟨none, [], c.allFaults⟩) := by
  have hrun : statement f c = (some (.done f), c.look) := by
    rw [statement, peek_run, hc]
    rfl
  rw [statementOrSkip, bind_run, recover, hrun, Cursor.look_of_rest_nil hc]
  rfl

theorem ended_of_statementOrSkip_done (f : File) (c : Cursor) (g : File)
    (h : (statementOrSkip f c).1 = some (.done g)) : (statementOrSkip f c).2.Ended := by
  by_cases hc : c.rest = []
  · rw [statementOrSkip_of_rest_nil f hc]
    exact ⟨rfl, rfl⟩
  · obtain ⟨_, hagain, _⟩ := givesAt_statementOrSkip f hc _ h
    cases hagain

/-- A file is read to its end. -/
theorem ended_of_file {c : Cursor} {f : File} (h : (file c).1 = some f) : (file c).2.Ended := by
  rw [file, bind_run] at h ⊢
  split at h
  · exact loopFor_ends Cursor.Ended ended_of_statementOrSkip_done h
  · cases h

/-- Where there is no fault in the end, there was none in a lexeme either, and the words are a
phrase, since all of them are read. -/
theorem mem_of_faults_nil {phrases : File → Language Token} (hreads : Reads phrases file)
    {c : Cursor} (h : (file c).2.allFaults = []) :
    c.allFaults = [] ∧ ∃ f, tokens c.rest ∈ phrases f := by
  rcases hreads c with ⟨used, f, c', hmem, hpasses⟩ | hreports
  · have hended := ended_of_file (congrArg Prod.fst hpasses.run)
    rw [hpasses.run] at h hended
    refine ⟨hpasses.faults.symm.trans h, f, ?_⟩
    rwa [hpasses.rest, hended.rest, List.append_nil]
  · rw [Reports, h] at hreports
    exact absurd hreports (Nat.not_lt_zero _)

/-- Every file is read without a fault. -/
theorem accepts_file : Accepts (· = none) Phrase.file Any file := by
  have hheading : ∀ e, Accepts (· = none) (Phrase.heading e * Phrase.statements e) Any file := by
    intro e
    refine (accepts_editionOrDefault_heading e).seq fun level hlevel => ?_
    rw [hlevel]
    exact accepts_statements e
  have hnothing : Accepts (· = none) (1 * Phrase.statements .proto2) Any file := by
    refine .bind accepts_editionOrDefault_nothing ?_ ?_
    · rintro _ rfl
      exact accepts_statements .proto2
    · exact leads_statements .proto2
  rw [one_mul] at hnothing
  exact (hnothing.add (hheading .proto2)).add (hheading .proto3)

end Protobuf.Grammar

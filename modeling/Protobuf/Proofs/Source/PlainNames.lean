import Protobuf.Proofs.Source.Conformance
import Protobuf.Proofs.Source.Lexemes
import Protobuf.Proofs.Source.Recovery
import Protobuf.Schema.Basic

/-! The names in parsed declarations are plain.

Names are read from tokens, and a token that is a name consists of letters, digits and underscores.
So what a parser gives has names of this kind, as long as the words in front of it do (`Yields`).
Such names have no dots in them, and can be told apart after they are joined by dots
(`dotted_inj`). -/
namespace Protobuf

/-- A name made of letters, digits and underscores. -/
def IsPlain (name : String) : Prop :=
  ∀ c ∈ name.toList, Lexer.isWordChar c = true

theorem IsPlain.dot_notMem {name : String} (h : IsPlain name) : '.' ∉ name.toList := by
  intro hdot
  have := h '.' hdot
  revert this
  decide

/-- A full name with plain parts. There is at least one, since a name is not empty. -/
structure QualifiedName.Plain (name : QualifiedName) : Prop where
  ne_nil : name ≠ []
  parts : ∀ part ∈ name, IsPlain part

theorem QualifiedName.Plain.splitOn_dotted {name : QualifiedName} (h : name.Plain) :
    name.dotted.toList.splitOn '.' = name.map String.toList := by
  rw [QualifiedName.dotted, String.toList_intercalate]
  refine List.splitOn_intercalate '.' (fun part hpart => ?_) (by simpa using h.ne_nil)
  obtain ⟨word, hword, rfl⟩ := List.mem_map.mp hpart
  exact (h.parts word hword).dot_notMem

/-- A full name can be told from its text. -/
theorem QualifiedName.dotted_inj {a b : QualifiedName} (ha : a.Plain) (hb : b.Plain) :
    a.dotted = b.dotted ↔ a = b := by
  refine ⟨fun h => ?_, fun h => h ▸ rfl⟩
  have hmap : a.map String.toList = b.map String.toList := by
    rw [← ha.splitOn_dotted, ← hb.splitOn_dotted, h]
  exact List.map_injective_iff.mpr (fun _ _ => String.toList_inj.mp) hmap

/-! ### Tokens -/

/-- If a word is a name, it is made of letters, digits and underscores. -/
def Word.Plain (w : Word) : Prop :=
  ∀ name, w.token = .ident name → IsPlain name

namespace Lexer

theorem isWordChar_of_isLetter {c : Char} (h : isLetter c = true) : isWordChar c = true := by
  unfold isLetter at h
  unfold isWordChar
  grind [Char.isAlphanum]

theorem number_ne_ident (start : Nat) (text : List Char) (name : String) :
    (number start text).token ≠ some (.ident name) := by
  unfold number intToken floatToken
  grind

/-- A name begins with a letter or an underscore. -/
theorem isLetter_of_token {start : Nat} {c : Char} {rest : List Char} {name : String}
    (h : (token start c rest).token = some (.ident name)) : isLetter c = true := by
  unfold token at h
  split at h
  · assumption
  split at h
  · exact absurd h (number_ne_ident _ _ _)
  split at h
  · exact absurd h (number_ne_ident _ _ _)
  · unfold string lineComment blockComment invalid at h
    grind

theorem isPlain_of_token {start : Nat} {c : Char} {rest : List Char} {name : String}
    (h : (token start c rest).token = some (.ident name)) : IsPlain name := by
  have hletter := isLetter_of_token h
  rw [token_letter hletter] at h
  have hname : String.ofList (c :: rest.takeWhile isWordChar) = name := by simpa [word] using h
  subst hname
  intro d hd
  rw [String.toList_ofList] at hd
  rcases List.mem_cons.mp hd with rfl | hd
  · exact isWordChar_of_isLetter hletter
  · exact List.all_eq_true.mp List.all_takeWhile d hd

theorem isPlain_of_mem_scanFrom {pos : Nat} {text : List Char} {l : Lexeme} {name : String}
    (hl : l ∈ scanFrom pos text) (h : l.token = some (.ident name)) : IsPlain name := by
  fun_induction scanFrom pos text with
  | case1 => cases hl
  | case2 pos c rest hblank ih => exact ih hl
  | case3 pos c rest hblank found stop ih =>
    rcases List.mem_cons.mp hl with rfl | hl
    · exact isPlain_of_token h
    · exact ih hl

end Lexer

namespace Parser

theorem token_of_word? {l : Lexeme} {w : Word} (h : l.word? = some w) :
    l.token = some w.token ∧ l.span = w.span := by
  unfold Lexeme.word? at h
  grind

theorem words_plain (text : String) : ∀ w ∈ words (Lexer.scan text), w.Plain := by
  intro w hw name hname
  obtain ⟨l, hl, hword⟩ := List.mem_filterMap.mp hw
  have htoken := (token_of_word? hword).1
  exact Lexer.isPlain_of_mem_scanFrom hl (htoken.trans (congrArg some hname))

end Parser

/-! ### Building parsers -/

namespace Parser
variable {α β σ : Type} {post : α → Prop} {p : Parser α}

/-- Where the names among the words are plain they stay so, and the value that the parser gives has
the property `post`. -/
def Yields (post : α → Prop) (p : Parser α) : Prop :=
  ∀ c : Cursor, (∀ w ∈ c.rest, w.Plain) →
    (∀ w ∈ (p c).2.rest, w.Plain) ∧ ∀ a, (p c).1 = some a → post a

theorem Orderly.yields {spends : α → Prop} (h : Orderly spends p) : Yields Any p :=
  fun c hc => ⟨fun w hw => hc w ((h c).rest.mem hw), fun _ _ => trivial⟩

theorem yields_pure {a : α} (h : post a) : Yields post (pure a) := by
  refine fun c hc => ⟨hc, fun b hb => ?_⟩
  cases hb
  exact h

/-- Of a parser that never gives a value nothing is asked. -/
theorem yields_unexpected (expected : String) : Yields post (unexpected expected) := by
  intro c hc
  have horderly : Orderly Never (unexpected expected : Parser α) := orderly_unexpected expected
  exact ⟨(horderly.yields c hc).1, gives_unexpected expected c⟩

theorem yields_impossible (reason : String) : Yields post (impossible reason) :=
  fun _ hc => ⟨hc, nofun⟩

theorem yields_report (fault : Fault) : Yields Any (report fault) :=
  fun _ hc => ⟨hc, fun _ _ => trivial⟩

theorem yields_peek : Yields (fun next => ∀ w, next = some w → w.Plain) peek := by
  intro c hc
  refine ⟨fun w hw => hc w (c.look_rest ▸ hw), fun next hnext w hw => ?_⟩
  cases hnext
  exact hc w (List.mem_of_mem_head? (c.look_seen ▸ hw))

theorem yields_advance (w : Word) : Yields Any (advance w) := by
  intro c hc
  refine ⟨?_, fun _ _ => trivial⟩
  unfold advance
  split
  · exact fun v hv => hc v (List.mem_append_right _ hv)
  · exact hc

theorem Yields.bind {post : β → Prop} {mid : α → Prop} {f : α → Parser β} (hp : Yields mid p)
    (hf : ∀ a, mid a → Yields post (f a)) : Yields post (p >>= f) := by
  intro c hc
  obtain ⟨hrest, hvalue⟩ := hp c hc
  rw [bind_run]
  cases hrun : p c with
  | mk result c' =>
    rw [hrun] at hrest hvalue
    cases result with
    | none => exact ⟨hrest, nofun⟩
    | some a => exact hf a (hvalue a rfl) c' hrest

theorem Yields.seq {spends : α → Prop} {post : β → Prop} {f : α → Parser β} (hp : Orderly spends p)
    (hf : ∀ a, Yields post (f a)) : Yields post (p >>= f) :=
  .bind hp.yields fun a _ => hf a

theorem Yields.andPure {post : β → Prop} {mid : α → Prop} {g : α → β} (hp : Yields mid p)
    (h : ∀ a, mid a → post (g a)) : Yields post (p >>= fun a => pure (g a)) :=
  .bind hp fun a ha => yields_pure (h a ha)

theorem Yields.recover {f : Option α → Parser α} (hp : Yields post p)
    (hsome : ∀ a, f (some a) = pure a) (hnone : Yields post (f none)) :
    Yields post (recover p >>= f) := by
  have hvalue : Yields (fun result => ∀ a, result = some a → post a) (Parser.recover p) := by
    refine fun c hc => ⟨(hp c hc).1, fun result hresult a ha => ?_⟩
    cases hresult
    exact (hp c hc).2 a ha
  refine .bind hvalue fun result hresult => ?_
  cases result with
  | none => exact hnone
  | some a =>
    rw [hsome a]
    exact yields_pure (hresult a rfl)

section Loops
variable {body : σ → Parser (Turn σ β)} {inv : σ → Prop} {post : β → Prop}

theorem yields_loopFor (h : ∀ s, inv s → Yields (Turn.Holds inv post) (body s)) (rounds : Nat)
    {s : σ} (hs : inv s) : Yields post (loopFor body rounds s) := by
  induction rounds generalizing s with
  | zero => exact yields_impossible _
  | succ rounds ih =>
    refine .bind (h s hs) fun turn hturn => ?_
    cases turn with
    | again s' => exact ih hturn
    | done b => exact yields_pure hturn

/-- A loop whose rounds keep an invariant. -/
theorem yields_loop (h : ∀ s, inv s → Yields (Turn.Holds inv post) (body s)) {s : σ}
    (hs : inv s) : Yields post (loop body s) :=
  fun c => yields_loopFor h c.limit hs c

end Loops

end Parser

/-! ### Declarations -/

/-- The parts of a dotted name are plain. -/
def Decl.Dotted.Plain (d : Decl.Dotted) : Prop :=
  ∀ part ∈ d.parts, IsPlain part.value

/-- An enum and its values have plain names. -/
structure Decl.Enum.Plain (e : Decl.Enum) : Prop where
  name : IsPlain e.name.value
  values : ∀ v ∈ e.values, IsPlain v.name.value

/-- A message, its fields and what is nested in it have plain names. -/
inductive Decl.Message.Plain : Decl.Message → Prop where
  | message {m : Decl.Message} (hname : IsPlain m.name.value)
      (hfields : ∀ f ∈ m.fields, IsPlain f.name.value)
      (hmessages : ∀ inner ∈ m.messages, Decl.Message.Plain inner)
      (henums : ∀ e ∈ m.enums, e.Plain) : Decl.Message.Plain m

/-- What a file declares has plain names, and so has its package. -/
structure Decl.File.Plain (f : Decl.File) : Prop where
  package : ∀ p, f.package = some p → p.name.Plain
  messages : ∀ m ∈ f.messages, m.Plain
  enums : ∀ e ∈ f.enums, e.Plain

theorem forall_mem_concat {α : Type} {post : α → Prop} {l : List α} {a : α} (hl : ∀ b ∈ l, post b)
    (ha : post a) : ∀ b ∈ l ++ [a], post b := by
  intro b hb
  rcases List.mem_append.mp hb with hb | hb
  · exact hl b hb
  · exact List.mem_singleton.mp hb ▸ ha

namespace Grammar
open Decl Protobuf.Parser

theorem yields_ident : Yields (fun i => IsPlain i.value) ident := by
  refine .bind yields_peek fun next hnext => ?_
  split
  · exact .bind (yields_advance _) fun _ _ => yields_pure (hnext _ rfl _ rfl)
  · exact yields_unexpected _

theorem yields_dottedFrom {first : Ident} (h : IsPlain first.value) :
    Yields Dotted.Plain (dottedFrom first) := by
  have hfirst : Dotted.Plain ⟨first, []⟩ := by
    simpa [Dotted.Plain, Dotted.parts] using h
  refine yields_loop (fun d hd => .seq (orderly_accept _) fun taken => ?_) hfirst
  split
  · exact .andPure yields_ident fun part hpart => forall_mem_concat hd hpart
  · exact yields_pure hd

theorem yields_dotted : Yields Dotted.Plain dotted :=
  .bind yields_ident fun _ => yields_dottedFrom

theorem yields_enumValue : Yields (fun v => IsPlain v.name.value) enumValue :=
  .bind yields_ident fun _ hname => .seq (orderly_sign _) fun _ => .seq orderly_int fun _ =>
    .seq orderly_enumValueSettings fun _ => .seq (orderly_sign _) fun _ => yields_pure hname

theorem yields_enumBody (start : Span) {name : Ident} (h : IsPlain name.value) :
    Yields Decl.Enum.Plain (enumBody start name) := by
  have hempty : Decl.Enum.Plain ⟨name, [], [], [], start⟩ := ⟨h, nofun⟩
  refine yields_loop (fun e he => .bind yields_peek fun w _ => ?_) hempty
  split
  · exact .seq begins_settingStatement.orderly fun _ => yields_pure ⟨he.name, he.values⟩
  · exact .seq orderly_reserved fun _ => yields_pure ⟨he.name, he.values⟩
  · exact .bind (yields_advance _) fun _ _ => yields_pure he
  · exact .andPure yields_enumValue fun v hv => ⟨he.name, forall_mem_concat he.values hv⟩
  · exact .bind (yields_advance _) fun _ _ => yields_pure ⟨he.name, he.values⟩
  · exact yields_unexpected _

theorem yields_enum : Yields Decl.Enum.Plain enum :=
  .seq (orderly_keyword _) fun start => .bind yields_ident fun _ hname =>
    .seq (orderly_sign _) fun _ => yields_enumBody start hname

theorem yields_field (e : Edition) : Yields (fun f => IsPlain f.name.value) (field e) :=
  .seq orderly_fieldLabel fun _ => .seq orderly_fieldType fun type =>
    .bind yields_ident fun _ hname => .seq (orderly_sign _) fun _ =>
      .seq orderly_positiveInt fun _ => .seq (orderly_fieldEnd type.1) fun _ =>
        .seq (orderly_reportAll fun _ _ => proper_of_mem_fieldFaults) fun _ => yields_pure hname

theorem yields_messageBody {e : Edition} {nested : Parser Decl.Message}
    (hnested : Yields Decl.Message.Plain nested) (start : Span) {name : Ident}
    (h : IsPlain name.value) : Yields Decl.Message.Plain (messageBody e nested start name) := by
  -- What is no definition does not change the names.
  have hsame : ∀ {m m' : Decl.Message}, m.Plain → m'.name = m.name → m'.fields = m.fields →
      m'.messages = m.messages → m'.enums = m.enums → m'.Plain := by
    intro m m' hm hname hfields hmessages henums
    obtain ⟨hplain, hnamed, hinner, hown⟩ := hm
    exact .message (hname ▸ hplain) (hfields ▸ hnamed) (hmessages ▸ hinner) (henums ▸ hown)
  have hfield : ∀ {m : Decl.Message} {f : Decl.Field}, m.Plain → IsPlain f.name.value →
      Decl.Message.Plain { m with fields := m.fields ++ [f] } := by
    intro m f hm hf
    obtain ⟨hplain, hnamed, hinner, hown⟩ := hm
    exact .message hplain (forall_mem_concat hnamed hf) hinner hown
  have hempty : Decl.Message.Plain ⟨name, [], [], [], [], [], start⟩ :=
    .message h nofun nofun nofun
  refine yields_loop (fun m hm => .bind yields_peek fun w _ => ?_) hempty
  split
  · exact .bind (yields_advance _) fun _ _ => yields_pure (hsame hm rfl rfl rfl rfl)
  · exact .bind (yields_advance _) fun _ _ => yields_pure hm
  · refine .andPure hnested fun inner hinner => ?_
    obtain ⟨hplain, hnamed, hothers, hown⟩ := hm
    exact .message hplain hnamed (forall_mem_concat hothers hinner) hown
  · refine .andPure yields_enum fun x hx => ?_
    obtain ⟨hplain, hnamed, hothers, hown⟩ := hm
    exact .message hplain hnamed hothers (forall_mem_concat hown hx)
  · exact .seq begins_settingStatement.orderly fun _ => yields_pure (hsame hm rfl rfl rfl rfl)
  · exact .seq orderly_reserved fun _ => yields_pure (hsame hm rfl rfl rfl rfl)
  · exact .bind (yields_report _) fun _ _ => .seq orderly_skipBlock fun _ => yields_pure hm
  · exact .bind (yields_report _) fun _ _ => .seq orderly_skipBlock fun _ => yields_pure hm
  · exact .bind (yields_report _) fun _ _ => .seq (orderly_skipTo _) fun _ =>
      .seq (orderly_accept _) fun _ => yields_pure hm
  · exact .andPure (yields_field e) fun _ hf => hfield hm hf
  · exact .andPure (yields_field e) fun _ hf => hfield hm hf
  · exact yields_unexpected _

theorem yields_messageUpTo (e : Edition) (depth : Nat) :
    Yields Decl.Message.Plain (messageUpTo e depth) := by
  induction depth with
  | zero => exact yields_impossible _
  | succ depth ih =>
    exact .seq (orderly_keyword _) fun start => .bind yields_ident fun _ hname =>
      .seq (orderly_sign _) fun _ => yields_messageBody ih start hname

theorem yields_message (e : Edition) : Yields Decl.Message.Plain (message e) :=
  fun c => yields_messageUpTo e c.limit c

/-! ### Files -/

theorem yields_package : Yields (fun p => p.name.Plain) package :=
  .seq (orderly_keyword _) fun _ => .bind yields_dotted fun _ hname =>
    .seq (orderly_sign _) fun _ => yields_pure hname

theorem yields_addPackage {f : File} {p : Package} (hf : f.Plain) (hp : p.name.Plain) :
    Yields File.Plain (addPackage f p) := by
  unfold addPackage
  split
  · exact .bind (yields_report _) fun _ _ => yields_pure hf
  · refine yields_pure ⟨fun q hq => ?_, hf.messages, hf.enums⟩
    cases hq
    exact hp

theorem yields_statement {f : File} (hf : f.Plain) :
    Yields (Turn.Holds File.Plain File.Plain) (statement f) := by
  have hsame : ∀ {g : File}, g.package = f.package → g.messages = f.messages →
      g.enums = f.enums → g.Plain := by
    intro g hpackage hmessages henums
    exact ⟨hpackage ▸ hf.package, hmessages ▸ hf.messages, henums ▸ hf.enums⟩
  refine .bind yields_peek fun w _ => ?_
  split
  · exact yields_pure hf
  · exact .bind (yields_advance _) fun _ _ => yields_pure hf
  · exact .seq begins_importStatement.orderly fun _ => yields_pure (hsame rfl rfl rfl)
  · exact .bind yields_package fun p hp => .andPure (yields_addPackage hf hp) fun _ h => h
  · exact .seq begins_settingStatement.orderly fun _ => yields_pure (hsame rfl rfl rfl)
  · exact .andPure (yields_message f.edition) fun m hm =>
      ⟨hf.package, forall_mem_concat hf.messages hm, hf.enums⟩
  · exact .andPure yields_enum fun e he =>
      ⟨hf.package, hf.messages, forall_mem_concat hf.enums he⟩
  · exact .seq begins_service.orderly fun _ => yields_pure hf
  · exact .bind (yields_report _) fun _ _ => .seq orderly_skipBlock fun _ => yields_pure hf
  · exact yields_unexpected _

theorem plain_empty (level : Edition) : (File.empty level).Plain :=
  ⟨nofun, nofun, nofun⟩

theorem yields_statementOrSkip {f : File} (hf : f.Plain) :
    Yields (Turn.Holds File.Plain File.Plain) (statementOrSkip f) :=
  .recover (yields_statement hf) (fun _ => rfl) (.seq (orderly_skipTo _) fun _ => yields_pure hf)

theorem yields_file : Yields File.Plain file :=
  .seq orderly_editionOrDefault fun level =>
    yields_loop (fun _ => yields_statementOrSkip) (plain_empty level)

/-- **What is parsed has plain names.** -/
theorem plain_of_parse {name text : String} {f : File} (h : parse name text = .ok f) : f.Plain := by
  obtain ⟨_, c, hrun, _⟩ := file_of_parse h
  exact (yields_file (.start text) (words_plain text)).2 f (by rw [hrun])

end Grammar

end Protobuf

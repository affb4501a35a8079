import Protobuf.Proofs.Source.Exactness

/-! Parsed declarations conform to their language level.

What a language level has against a field is reported while the field is read, and the field is kept
all the same. So nothing can be said of the values of a parser as such, but a good deal of those
that it gives without adding a fault (`Delivers`); and a text is parsed only if there are no faults.
-/
namespace Protobuf.Parser

variable {α β σ : Type} {post : α → Prop} {p : Parser α}

/-- The parser keeps faults; where it adds none, the value that it gives has the property `post`. -/
structure Delivers (post : α → Prop) (p : Parser α) : Prop where
  keeps : Keeps p
  value : ∀ {c : Cursor} {a : α}, (p c).1 = some a →
    (p c).2.allFaults.length = c.allFaults.length → post a

theorem keeps_peek : Keeps peek :=
  fun c => (congrArg List.length c.look_allFaults).ge

theorem keeps_advance (w : Word) : Keeps (advance w) := by
  intro c
  unfold advance
  split
  · exact Nat.le_refl _
  · exact keeps_impossible _ c

theorem Keeps.delivers (h : Keeps p) : Delivers Any p :=
  ⟨h, fun _ _ => trivial⟩

theorem Delivers.imp {post' : α → Prop} (h : Delivers post p) (himp : ∀ a, post a → post' a) :
    Delivers post' p :=
  ⟨h.keeps, fun ha hfaults => himp _ (h.value ha hfaults)⟩

theorem delivers_pure {a : α} (h : post a) : Delivers post (pure a) where
  keeps := keeps_pure a
  value ha _ := by
    cases ha
    exact h

/-- Of a parser that always adds a fault nothing is promised. -/
theorem delivers_of_reports (h : ∀ c, Reports p c) : Delivers post p where
  keeps c := Nat.le_of_lt (h c)
  value {c _} _ hfaults := absurd hfaults (Nat.ne_of_gt (h c))

theorem delivers_unexpected (expected : String) : Delivers post (unexpected expected) :=
  delivers_of_reports fun _ => reports_unexpected expected

theorem delivers_report {fault : Fault} {f : Unit → Parser α} (hf : Keeps (f ())) :
    Delivers post (report fault >>= f) :=
  delivers_of_reports fun _ => (reports_report fault).bind fun _ => hf

/-- A sequence adds no faults only if neither of its parts does. -/
theorem Delivers.bind {post : β → Prop} {mid : α → Prop} {f : α → Parser β} (hp : Delivers mid p)
    (hf : ∀ a, Delivers (fun b => mid a → post b) (f a)) : Delivers post (p >>= f) where
  keeps := hp.keeps.bind fun a => (hf a).keeps
  value {c b} hb hfaults := by
    have hkeeps := hp.keeps c
    rw [bind_run] at hb hfaults
    cases hrun : p c with
    | mk result c' =>
      rw [hrun] at hb hfaults hkeeps
      cases result with
      | none => cases hb
      | some a =>
        dsimp only at hb hfaults hkeeps
        have hrest := (hf a).keeps c'
        have hfirst : (p c).2.allFaults.length = c.allFaults.length := by
          rw [hrun]
          exact Nat.le_antisymm (hfaults ▸ hrest) hkeeps
        have hsecond : (f a c').2.allFaults.length = c'.allFaults.length := by
          rw [hrun] at hfirst
          exact hfaults.trans hfirst.symm
        exact (hf a).value hb hsecond (hp.value (by rw [hrun]) hfirst)

theorem Delivers.seq {post : β → Prop} {f : α → Parser β} (hp : Keeps p)
    (hf : ∀ a, Delivers post (f a)) : Delivers post (p >>= f) :=
  hp.delivers.bind fun a => (hf a).imp fun _ hb _ => hb

theorem Delivers.andPure {post : β → Prop} {mid : α → Prop} {g : α → β} (hp : Delivers mid p)
    (h : ∀ a, mid a → post (g a)) : Delivers post (p >>= fun a => pure (g a)) :=
  hp.bind fun a => delivers_pure (h a)

theorem Delivers.recover {f : Option α → Parser α} (hp : Delivers post p)
    (hsome : ∀ a, f (some a) = pure a) (hnone : Delivers post (f none)) :
    Delivers post (recover p >>= f) := by
  have hvalue : Delivers (fun result => ∀ a, result = some a → post a) (Parser.recover p) :=
    ⟨hp.keeps, fun hresult hfaults a ha => hp.value (by cases hresult; exact ha) hfaults⟩
  refine hvalue.bind fun result => ?_
  cases result with
  | none => exact hnone.imp fun _ ha _ => ha
  | some a =>
    rw [hsome a]
    exact delivers_pure fun ha => ha a rfl

/-- What a turn leads to: a state with the property `inv` or a result with the property `post`. -/
def Turn.Holds (inv : σ → Prop) (post : β → Prop) : Turn σ β → Prop
  | .again s => inv s
  | .done b => post b

section Loops
variable {body : σ → Parser (Turn σ β)} {inv : σ → Prop} {post : β → Prop}

theorem delivers_loopFor (h : ∀ s, Delivers (fun turn => inv s → turn.Holds inv post) (body s))
    (rounds : Nat) (s : σ) : Delivers (fun b => inv s → post b) (loopFor body rounds s) := by
  induction rounds generalizing s with
  | zero => exact delivers_of_reports fun _ => reports_impossible _
  | succ rounds ih =>
    refine (h s).bind fun turn => ?_
    cases turn with
    | again s' => exact (ih s').imp fun _ hb hturn hs => hb (hturn hs)
    | done b => exact delivers_pure fun hturn hs => hturn hs

/-- A loop whose rounds keep an invariant. -/
theorem delivers_loop (h : ∀ s, Delivers (fun turn => inv s → turn.Holds inv post) (body s)) {s : σ}
    (hs : inv s) : Delivers post (loop body s) where
  keeps c := (delivers_loopFor h _ s).keeps c
  value hb hfaults := (delivers_loopFor h _ s).value hb hfaults hs

end Loops

end Protobuf.Parser

namespace Protobuf.Grammar
open Decl Protobuf.Parser

/-- Nothing speaks against the fields of a message and of the messages in it. -/
inductive Conforms (e : Edition) : Decl.Message → Prop where
  | message {m : Decl.Message} (hfields : ∀ f ∈ m.fields, fieldFaults e f = [])
      (hmessages : ∀ inner ∈ m.messages, Conforms e inner) : Conforms e m

theorem Conforms.fields {e : Edition} {m : Decl.Message} (h : Conforms e m) {f : Decl.Field}
    (hf : f ∈ m.fields) : fieldFaults e f = [] := by
  obtain ⟨hfields, _⟩ := h
  exact hfields f hf

theorem Conforms.messages {e : Edition} {m : Decl.Message} (h : Conforms e m) {inner : Decl.Message}
    (hinner : inner ∈ m.messages) : Conforms e inner := by
  obtain ⟨_, hmessages⟩ := h
  exact hmessages inner hinner

/-! ### Messages -/

theorem keeps_fieldLabel : Keeps fieldLabel := by
  refine .bind keeps_peek fun w => ?_
  split
  · exact .bind (keeps_advance _) fun _ => keeps_pure _
  · exact .bind (keeps_advance _) fun _ => keeps_pure _
  · exact .bind (keeps_advance _) fun _ => keeps_pure _
  · exact keeps_pure _
  · exact keeps_pure _
  · exact Delivers.keeps (delivers_unexpected _ : Delivers Any _)

theorem delivers_reportAll (faults : List Fault) :
    Delivers (fun _ => faults = []) (reportAll faults) where
  keeps := (reads_reportAll faults).keeps
  value {c _} _ hfaults := by
    by_contra hne
    exact absurd hfaults (Nat.ne_of_gt (c.length_allFaults_lt hne))

theorem delivers_field (e : Edition) : Delivers (fun f => fieldFaults e f = []) (field e) :=
  .seq keeps_fieldLabel fun _ => .seq reads_fieldType.keeps fun type =>
    .seq reads_ident.keeps fun _ => .seq (reads_sign .equals).keeps fun _ =>
      .seq reads_positiveInt.keeps fun _ => .seq (reads_fieldEnd type.1).keeps fun _ =>
        (delivers_reportAll _).andPure fun _ h => h

theorem delivers_messageBody {e : Edition} {nested : Parser Decl.Message}
    (hnested : Delivers (Conforms e) nested) (start : Span) (name : Ident) :
    Delivers (Conforms e) (messageBody e nested start name) := by
  have hfield : ∀ m : Decl.Message, Delivers
      (fun turn : Turn Decl.Message Decl.Message =>
        Conforms e m → turn.Holds (Conforms e) (Conforms e))
      (field e >>= fun f => pure (.again { m with fields := m.fields ++ [f] })) := by
    refine fun m => (delivers_field e).andPure fun f hf hm => .message ?_ fun _ => hm.messages
    intro g hg
    rcases List.mem_append.mp hg with hg | hg
    · exact hm.fields hg
    · exact List.mem_singleton.mp hg ▸ hf
  have hempty : Conforms e ⟨name, [], [], [], [], [], start⟩ := .message nofun nofun
  refine delivers_loop (fun m => .seq keeps_peek fun w => ?_) hempty
  split
  · exact .seq (keeps_advance _) fun _ => delivers_pure fun hm =>
      .message (fun _ => hm.fields) fun _ => hm.messages
  · exact .seq (keeps_advance _) fun _ => delivers_pure id
  · refine hnested.andPure fun inner hinner hm =>
      .message (fun _ => hm.fields) fun other hother => ?_
    rcases List.mem_append.mp hother with hother | hother
    · exact hm.messages hother
    · exact List.mem_singleton.mp hother ▸ hinner
  · exact reads_enum.keeps.delivers.andPure fun _ _ hm =>
      .message (fun _ => hm.fields) fun _ => hm.messages
  · exact reads_settingStatement.keeps.delivers.andPure fun _ _ hm =>
      .message (fun _ => hm.fields) fun _ => hm.messages
  · exact reads_reserved.keeps.delivers.andPure fun _ _ hm =>
      .message (fun _ => hm.fields) fun _ => hm.messages
  · exact delivers_report (reads_skipBlock.keeps.bind fun _ => keeps_pure _)
  · exact delivers_report (reads_skipBlock.keeps.bind fun _ => keeps_pure _)
  · exact delivers_report ((reads_skipTo _).keeps.bind fun _ =>
      (reads_accept _).keeps.bind fun _ => keeps_pure _)
  · exact hfield m
  · exact hfield m
  · exact delivers_unexpected _

theorem delivers_messageUpTo (e : Edition) (depth : Nat) :
    Delivers (Conforms e) (messageUpTo e depth) := by
  induction depth with
  | zero => exact delivers_of_reports fun _ => reports_impossible _
  | succ depth ih =>
    exact .seq (reads_keyword _).keeps fun start => .seq reads_ident.keeps fun name =>
      .seq (reads_sign .leftBrace).keeps fun _ => delivers_messageBody ih start name

theorem delivers_message (e : Edition) : Delivers (Conforms e) (message e) where
  keeps c := (delivers_messageUpTo e _).keeps c
  value hm hfaults := (delivers_messageUpTo e _).value hm hfaults

/-! ### Files -/

/-- The messages of a file conform to the level that it declares. -/
def FileConforms (f : File) : Prop :=
  ∀ m ∈ f.messages, Conforms f.edition m

theorem delivers_addPackage (f : File) (p : Package) :
    Delivers (fun g => FileConforms f → FileConforms g) (addPackage f p) := by
  unfold addPackage
  split
  · exact delivers_report (keeps_pure _)
  · exact delivers_pure id

theorem delivers_statement (f : File) :
    Delivers (fun turn => FileConforms f → turn.Holds FileConforms FileConforms) (statement f) := by
  refine .seq keeps_peek fun w => ?_
  split
  · exact delivers_pure id
  · exact .seq (keeps_advance _) fun _ => delivers_pure id
  · exact reads_importStatement.keeps.delivers.andPure fun _ _ hf => hf
  · exact .seq reads_package.keeps fun p => (delivers_addPackage f p).andPure fun _ h => h
  · exact reads_settingStatement.keeps.delivers.andPure fun _ _ hf => hf
  · refine (delivers_message f.edition).andPure fun m hm hf other hother => ?_
    rcases List.mem_append.mp hother with hother | hother
    · exact hf other hother
    · exact List.mem_singleton.mp hother ▸ hm
  · exact reads_enum.keeps.delivers.andPure fun _ _ hf => hf
  · exact .seq reads_service.keeps fun _ => delivers_pure id
  · exact delivers_report (reads_skipBlock.keeps.bind fun _ => keeps_pure _)
  · exact delivers_unexpected _

theorem delivers_file : Delivers FileConforms file :=
  .seq reads_editionOrDefault.keeps fun _ => delivers_loop
    (fun f => (delivers_statement f).recover (fun _ => rfl)
      (.seq (reads_skipTo _).keeps fun _ => delivers_pure id)) nofun

/-- What is parsed conforms to the level that it declares. -/
theorem conforms_of_parse {name text : String} {f : File} (h : parse name text = .ok f) :
    FileConforms f := by
  obtain ⟨hlexical, c, hrun, hfaults⟩ := file_of_parse h
  exact delivers_file.value (congrArg Prod.fst hrun) (by rw [hrun, hfaults, hlexical])

end Protobuf.Grammar

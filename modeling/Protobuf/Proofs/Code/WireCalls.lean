import Protobuf.Proofs.Code.EnumTables

/-! Calls in the code of a message type.

The methods that write and read a message are sequences of calls: each passes a field of the struct
to a function of the library, some of them under a condition. The lines of such a method are read as
`Statement`s, those of a match as `Arm`s and those of the method that looks for missing fields as
`Check`s, and what is none of these is refused. What is written for a field is read as the call for
it (`statements?_fields`, `arm?_text`, `checks?_flatMap`). -/
namespace Protobuf.MessageType
open Code EnumType

/-! ### Calls -/

/-- The part of the library for one kind of values. -/
inductive CodecRef where
  | scalar (type : Scalar)
  | enumeration
  | message

/-- Whether a function is for one value or for all values of a field. -/
inductive Extent where
  | one
  | repeated
  | packed

/-- What is passed to a function: a field, or the value that a condition gave a name. -/
inductive Argument where
  | value
  | field (ident : String)

/-- A call of a function for the field with some number. -/
structure Call where
  codec : CodecRef
  extent : Extent
  number : Nat
  argument : Argument

/-- When a call is made. -/
inductive Condition where
  | always
  /-- The field is set. Its value then has a name. -/
  | isSome (ident : String)
  | isTrue (ident : String)
  | notEmpty (ident : String)
  | nonzero (ident : String)
  | nonzeroFloat (ident : String)

structure Statement where
  condition : Condition
  call : Call

/-- Where a function puts what it reads: into a field, or into the value of an optional one, which
gets a default value first if it is unset. -/
inductive Target where
  | field (ident : String)
  | inserted (ident : String)

/-- The call for the fields with some number that are read. -/
structure Arm where
  number : Nat
  codec : CodecRef
  extent : Extent
  target : Target

/-- A check of one field: that it is set, or what its messages lack. -/
inductive Check where
  | isSome (ident name : String)
  | inside (ident : String)
  | insideEach (ident : String)

namespace CodecRef

def ofType : FieldType → CodecRef
  | .scalar type => .scalar type
  | .enum _ => .enumeration
  | .message _ => .message

def name : CodecRef → String
  | scalar type => type.name
  | enumeration => "enumeration"
  | message => "message"

def ofName? (name : String) : Option CodecRef :=
  if name = "enumeration" then some .enumeration
  else if name = "message" then some .message
  else (Scalar.ofName? name).map .scalar

theorem ofName?_name (c : CodecRef) : ofName? c.name = some c := by
  cases c with
  | enumeration => rfl
  | message => rfl
  | scalar type =>
    have hname : type.name ≠ "enumeration" ∧ type.name ≠ "message" := by
      cases type <;> decide
    rw [name, ofName?, if_neg hname.1, if_neg hname.2, type.ofName?_name, Option.map_some]

theorem stops_name (c : CodecRef) : Stops c.name "::" := by
  refine ⟨':', rfl, ?_⟩
  cases c with
  | enumeration => decide
  | message => decide
  | scalar type => cases type <;> decide

end CodecRef

/-! ### Lines -/

/-- What stands behind `front`. -/
def behind? (front text : String) : Option String :=
  (front.toList.isPrefixOf? text.toList).map String.ofList

/-- The function with this name, of a family of functions. -/
def extent? (family name : String) : Option Extent :=
  if name = family then some .one
  else if name = family ++ "_repeated" then some .repeated
  else if name = family ++ "_packed" then some .packed
  else none

def argument? (text : String) : Option Argument :=
  if text = "value" then some .value else (behind? "&self." text).map .field

/-- A call of a function of the family, as it stands between `front` and `close`. -/
def call? (family front close text : String) : Option Call :=
  match pieces? (front ++ library ++ "::encoding::") ["::", "(", ", ", close] text with
  | some [codec, function, number, argument] => do
    return ⟨← CodecRef.ofName? codec, ← extent? family function, ← nat? number,
      ← argument? argument⟩
  | _ => none

/-- How a block begins that is for the value of an optional field. -/
def ifLet : String :=
  "if let " ++ optionType ++ "::Some(value) = &self."

/-- The condition at the head of a block. -/
def condition? (head : String) : Option Condition :=
  ((piece? ifLet " \x7b" head).map .isSome).or
    (((piece? "if !self." ".is_empty() \x7b" head).map .notEmpty).or
      (((piece? "if self." " != 0.0 \x7b" head).map .nonzeroFloat).or
        (((piece? "if self." " != 0 \x7b" head).map .nonzero).or
          ((piece? "if self." " \x7b" head).map .isTrue))))

/-- Calls one after the other, each on its own or in a block with a condition. -/
def statements? (call? : String → Option Call) : List Code → Option (List Statement)
  | [] => some []
  | .line head :: .indented [.line text] :: .line close :: rest => do
    guard (close = "\x7d")
    return ⟨← condition? head, ← call? text⟩ :: (← statements? call? rest)
  | .line text :: rest => do
    return ⟨.always, ← call? text⟩ :: (← statements? call? rest)
  | _ => none

/-- How an unset field gets a default value. -/
def insertDefault : String :=
  ".get_or_insert_with(" ++ defaultFunction ++ ")"

def target? (text : String) : Option Target :=
  ((behind? "&mut self." text).map .field).or
    ((piece? "self." insertDefault text).map .inserted)

def arm? (text : String) : Option Arm :=
  match pieces? "" [" => " ++ library ++ "::encoding::", "::", "(wire_type, ", ", buf, ctx),"]
      text with
  | some [number, codec, function, target] => do
    return ⟨← nat? number, ← CodecRef.ofName? codec, ← extent? "merge" function, ← target? target⟩
  | _ => none

/-- How the report of a missing field begins. -/
def missingHead : String :=
  "return ::core::result::Result::Err(" ++ library ++ "::DecodeError::MissingRequiredField \x7b"

/-- The name of the field that is reported as missing. -/
def missing? (body : List Code) : Option String :=
  match body with
  | [.line head, .indented [.line message, .line field], .line close] =>
    if head = missingHead ∧ message = "message: Self::FULL_NAME," ∧ close = "\x7d);" then
      (piece? "field: " "," field).bind literal?
    else none
  | _ => none

/-- The check with this head. -/
def check? (head : String) (body : List Code) : Option Check :=
  match piece? "if self." ".is_none() \x7b" head with
  | some ident => (missing? body).map (.isSome ident)
  | none =>
    if body.map text? = [some (library ++ "::Message::check_initialized(value)?;")] then
      ((piece? "for value in &self." " \x7b" head).map .insideEach).or
        ((piece? ifLet " \x7b" head).map .inside)
    else none

/-- Checks one after the other, and success behind the last one. -/
def checks? : List Code → Option (List Check)
  | [.line last] => if last = "::core::result::Result::Ok(())" then some [] else none
  | .line head :: .indented body :: .line close :: rest => do
    guard (close = "\x7d")
    return (← check? head body) :: (← checks? rest)
  | _ => none

/-! ### Calls for fields -/

/-- When a field is written. -/
def conditionOf (f : Field) : Condition :=
  match f.cardinality with
  | .optional | .required => .isSome (Ident.field f.name)
  | .repeated => .always
  | .implicit =>
    match f.type with
    | .scalar .bool => .isTrue (Ident.field f.name)
    | .scalar .string | .scalar .bytes => .notEmpty (Ident.field f.name)
    | .scalar .float | .scalar .double => .nonzeroFloat (Ident.field f.name)
    | _ => .nonzero (Ident.field f.name)

def statementOf (f : Field) : Statement where
  condition := conditionOf f
  call :=
    { codec := .ofType f.type
      extent := if f.isRepeated then if f.packed then .packed else .repeated else .one
      number := f.number
      argument :=
        match f.cardinality with
        | .optional | .required => .value
        | .repeated | .implicit => .field (Ident.field f.name) }

def armOf (f : Field) : Arm where
  number := f.number
  codec := .ofType f.type
  extent := if f.isRepeated then .repeated else .one
  target :=
    match f.cardinality with
    | .optional | .required => .inserted (Ident.field f.name)
    | .repeated | .implicit => .field (Ident.field f.name)

def checksOf (f : Field) : List Check :=
  (if f.cardinality = .required then [.isSome (Ident.field f.name) f.name] else []) ++
    if !f.type.isMessage then []
    else if f.isRepeated then [.insideEach (Ident.field f.name)]
    else [.inside (Ident.field f.name)]

/-! ### Texts of calls -/

/-- Identifiers of fields can be raw ones. -/
theorem ident_madeOf (name : String) : IsMadeOf ['#'] (Ident.field name) := by
  intro c hc
  by_contra hnot
  obtain ⟨hword, hraw⟩ := not_or.mp hnot
  have hraw : c ≠ '#' := fun heq => hraw (List.mem_singleton.mpr heq)
  exact Ident.notMem_escape (Ident.snake_plain name) (Bool.eq_false_iff.mpr hword) hraw hc

def Extent.function (family : String) : Extent → String
  | one => family
  | repeated => family ++ "_repeated"
  | packed => family ++ "_packed"

def Argument.text : Argument → String
  | value => "value"
  | field ident => "&self." ++ ident

def Argument.ident? : Argument → Option String
  | value => none
  | field ident => some ident

def Call.text (family front close : String) (c : Call) : String :=
  front ++ codecFunction c.codec.name (c.extent.function family) ++ "(" ++ c.number.repr ++ ", " ++
    c.argument.text ++ close

def Condition.ident? : Condition → Option String
  | always => none
  | isSome ident | isTrue ident | notEmpty ident | nonzero ident | nonzeroFloat ident => some ident

/-- The head of the block under a condition. -/
def Condition.head? : Condition → Option String
  | always => none
  | isSome ident => some (ifLet ++ ident)
  | isTrue ident => some ("if self." ++ ident)
  | notEmpty ident => some ("if !self." ++ ident ++ ".is_empty()")
  | nonzero ident => some ("if self." ++ ident ++ " != 0")
  | nonzeroFloat ident => some ("if self." ++ ident ++ " != 0.0")

/-- A line under a condition. -/
def Condition.around (line : Code) (c : Condition) : List Code :=
  match c.head? with
  | none => [line]
  | some head => block head [line]

theorem behind?_eq (front text : String) : behind? front (front ++ text) = some text := by
  have hfront : front.toList.isPrefixOf? (front ++ text).toList = some text.toList :=
    List.isPrefixOf?_eq_some_iff_append_eq.mpr (String.toList_append ..).symm
  rw [behind?, hfront, Option.map_some, String.ofList_toList]

theorem extent?_function (family : String) (e : Extent) :
    extent? family (e.function family) = some e := by
  have hne (suffix : String) (h : suffix ≠ "") : family ++ suffix ≠ family := by
    simpa using h
  cases e with
  | one => exact if_pos rfl
  | repeated => rw [Extent.function, extent?, if_neg (hne _ (by decide)), if_pos rfl]
  | packed =>
    have hdiffer : family ++ "_packed" ≠ family ++ "_repeated" := by simp
    rw [Extent.function, extent?, if_neg (hne _ (by decide)), if_neg hdiffer, if_pos rfl]

theorem function_madeOf {others : List Char} {family : String} (h : IsMadeOf others family)
    (e : Extent) : IsMadeOf others (e.function family) := by
  cases e with
  | one => exact h
  | repeated => exact h.append (.of_plain (List.all_eq_true.mp rfl))
  | packed => exact h.append (.of_plain (List.all_eq_true.mp rfl))

theorem argument?_text (a : Argument) : argument? a.text = some a := by
  cases a with
  | value => rfl
  | field ident =>
    have hne : "&self." ++ ident ≠ "value" := ne_of_take 1 (by simp)
    rw [Argument.text, argument?, if_neg hne, behind?_eq, Option.map_some]

theorem argument_madeOf {a : Argument} (h : ∀ i ∈ a.ident?, IsMadeOf ['#'] i) :
    IsMadeOf ['#', '&', '.'] a.text := by
  cases a with
  | value => decide
  | field ident =>
    have hfront : IsMadeOf ['#', '&', '.'] "&self." := by decide
    exact hfront.append ((h ident rfl).mono (by decide))

theorem repr_madeOf (others : List Char) (n : Nat) : IsMadeOf others n.repr := by
  intro c hc
  rw [Nat.repr_eq_ofList_toDigits, String.toList_ofList] at hc
  have hdigit := Nat.isDigit_of_mem_toDigits (by decide) (by decide) hc
  exact .inl (by simp [Lexer.isWordChar, Char.isAlphanum, hdigit])

/-- **A call is read as it was written.** -/
theorem call?_text {family : String} (front : String) {close : String} {c : Call} {d : Char}
    (hfamily : IsPlain family) (h : ∀ i ∈ c.argument.ident?, IsMadeOf ['#'] i)
    (hclose : close.toList.head? = some d) (hd : Lexer.isWordChar d = false)
    (hd' : d ∉ ['#', '&', '.']) :
    call? family front close (c.text family front close) = some c := by
  have hplain : IsMadeOf [] (c.extent.function family) :=
    function_madeOf (.of_plain hfamily) c.extent
  have hfunction : Stops (c.extent.function family) "(" := ⟨'(', rfl, hplain.notMem rfl (by decide)⟩
  have hnumber : Stops c.number.repr ", " := ⟨',', rfl, (repr_madeOf [] _).notMem rfl (by decide)⟩
  have hargument : Stops c.argument.text close := ⟨d, hclose, (argument_madeOf h).notMem hd hd'⟩
  have hpieces := pieces?_eq (front ++ library ++ "::encoding::")
    (l := [(c.codec.name, "::"), (c.extent.function family, "("), (c.number.repr, ", "),
      (c.argument.text, close)]) (by simp [c.codec.stops_name, hfunction, hnumber, hargument])
  simp only [List.map_cons, List.map_nil, String.join_cons, String.join_nil, String.append_empty,
    String.append_assoc] at hpieces
  simp only [call?, Call.text, codecFunction, String.append_assoc, hpieces, c.codec.ofName?_name,
    extent?_function, nat?_repr, argument?_text]
  rfl

/-- What follows the identifier in a head ends with the brace. -/
theorem head_append {last close : String} (h : last ++ " \x7b" = close) (front ident : String) :
    front ++ ident ++ last ++ " \x7b" = front ++ (ident ++ close) := by
  rw [String.append_assoc, String.append_assoc, h]

theorem condition?_head {c : Condition} (h : ∀ i ∈ c.ident?, IsMadeOf ['#'] i) {head : String}
    (hhead : c.head? = some head) : condition? (head ++ " \x7b") = some c := by
  have hblank {i : String} (hi : IsMadeOf ['#'] i) : ' ' ∉ i.toList := hi.notMem rfl (by decide)
  -- Conditions on a field itself begin otherwise than those on its value or emptiness.
  have hlet (rest : String) : piece? ifLet " \x7b" ("if self." ++ rest) = none :=
    piece?_of_front 4 (by decide) (by simp [ifLet]) _
  have hempty (rest : String) :
      piece? "if !self." ".is_empty() \x7b" ("if self." ++ rest) = none :=
    piece?_of_front 4 (by decide) (by simp) _
  cases c with
  | always => cases hhead
  | isSome ident =>
    cases hhead
    rw [condition?, String.append_assoc, piece?_eq ifLet ⟨' ', rfl, hblank (h ident rfl)⟩,
      Option.map_some, Option.some_or]
  | notEmpty ident =>
    cases hhead
    have hlast : ".is_empty()" ++ " \x7b" = ".is_empty() \x7b" := rfl
    have hlet' (rest : String) : piece? ifLet " \x7b" ("if !self." ++ rest) = none :=
      piece?_of_front 4 (by decide) (by simp [ifLet]) _
    rw [head_append hlast, condition?, hlet', Option.map_none, Option.none_or,
      piece?_eq _ ⟨'.', rfl, (h ident rfl).notMem rfl (by decide)⟩, Option.map_some, Option.some_or]
  | nonzeroFloat ident =>
    cases hhead
    have hlast : " != 0.0" ++ " \x7b" = " != 0.0 \x7b" := rfl
    rw [head_append hlast, condition?, hlet, hempty, Option.map_none, Option.map_none,
      Option.none_or, Option.none_or, piece?_eq _ ⟨' ', rfl, hblank (h ident rfl)⟩,
      Option.map_some, Option.some_or]
  | nonzero ident =>
    cases hhead
    have hlast : " != 0" ++ " \x7b" = " != 0 \x7b" := rfl
    have hident := hblank (h ident rfl)
    rw [head_append hlast, condition?, hlet, hempty,
      piece?_eq_none _ rfl rfl hident (by decide), piece?_eq _ ⟨' ', rfl, hident⟩]
    rfl
  | isTrue ident =>
    cases hhead
    have hident := hblank (h ident rfl)
    rw [String.append_assoc, condition?, hlet, hempty,
      piece?_eq_none _ rfl rfl hident (by decide), piece?_eq_none _ rfl rfl hident (by decide),
      piece?_eq _ ⟨' ', rfl, hident⟩]
    rfl

/-! ### Statements -/

/-- Code that does not begin further in. -/
def Outdented (code : List Code) : Prop :=
  ∀ body rest, code ≠ .indented body :: rest

theorem outdented_around (line : String) (c : Condition) (rest : List Code) :
    Outdented (c.around (.line line) ++ rest) := by
  unfold Condition.around Outdented
  split <;> simp [block, enclosed]

theorem statements?_around {read : String → Option Call} {st : Statement} {text : String}
    (h : ∀ i ∈ st.condition.ident?, IsMadeOf ['#'] i) (hread : read text = some st.call)
    {rest : List Code} (hrest : Outdented rest) :
    statements? read (st.condition.around (.line text) ++ rest) =
      (statements? read rest).map (st :: ·) := by
  unfold Condition.around
  split
  · rename_i hhead
    have halways : st.condition = .always := by
      cases hc : st.condition <;> simp_all [Condition.head?]
    rw [List.singleton_append, statements?]
    · rw [hread]
      cases hothers : statements? read rest <;> simp [← halways]
    · intro _ _ _ heq
      exact hrest _ _ heq
  · rename_i head hhead
    rw [block, enclosed, List.cons_append, List.cons_append, List.cons_append, List.nil_append,
      statements?, condition?_head h hhead, hread]
    cases hothers : statements? read rest <;> simp

theorem statements?_flatMap {read : String → Option Call} {text : Statement → String}
    {l : List Statement} (h : ∀ st ∈ l, ∀ i ∈ st.condition.ident?, IsMadeOf ['#'] i)
    (hread : ∀ st ∈ l, read (text st) = some st.call) :
    statements? read (l.flatMap fun st => st.condition.around (.line (text st))) = some l := by
  induction l with
  | nil => rfl
  | cons st l ih =>
    obtain ⟨hst, hl⟩ := List.forall_mem_cons.mp h
    obtain ⟨hreadSt, hreadL⟩ := List.forall_mem_cons.mp hread
    have hrest : Outdented (l.flatMap fun st => st.condition.around (.line (text st))) := by
      cases l with
      | nil => nofun
      | cons next l => exact outdented_around _ next.condition _
    rw [List.flatMap_cons, statements?_around hst hreadSt hrest, ih hl hreadL, Option.map_some]

theorem field_ofField (s : Schema) (home : ModulePath) (f : Field) :
    (FieldCode.ofField s home f).field = f := by
  unfold FieldCode.ofField
  dsimp only
  split <;> rfl

theorem codec_ofField (s : Schema) (home : ModulePath) (f : Field) :
    (FieldCode.ofField s home f).codec = (CodecRef.ofType f.type).name := by
  unfold FieldCode.ofField
  dsimp only
  split <;> simp_all [CodecRef.ofType, CodecRef.name]

theorem head?_conditionOf (s : Schema) (home : ModulePath) {f : Field}
    (h : f.cardinality = .implicit) :
    (conditionOf f).head? = some ("if " ++ (FieldCode.ofField s home f).isSet) := by
  have hself (text : String) : "if " ++ ("self." ++ text) = "if self." ++ text := by
    rw [← String.append_assoc]
    rfl
  have hnot (text : String) : "if " ++ ("!self." ++ text) = "if !self." ++ text := by
    rw [← String.append_assoc]
    rfl
  unfold FieldCode.isSet conditionOf
  rw [field_ofField, ident_ofField, h]
  cases f.type with
  | scalar type => cases type <;> simp only [Condition.head?, String.append_assoc, hself, hnot]
  | message index => simp only [Condition.head?, String.append_assoc, hself]
  | enum index => simp only [Condition.head?, String.append_assoc, hself]

/-- What is written for a field is its call under its condition. -/
theorem fieldCall_ofField (family front close : String) (s : Schema) (home : ModulePath)
    (f : Field) :
    fieldCall family front close (.ofField s home f) =
      (statementOf f).condition.around (.line ((statementOf f).call.text family front close)) := by
  have htext (e : Extent) (a : Argument) :
      Call.text family front close ⟨.ofType f.type, e, f.number, a⟩ =
        front ++ (FieldCode.ofField s home f).function (e.function family) ++ "(" ++
          (FieldCode.ofField s home f).number ++ ", " ++ a.text ++ close := by
    rw [Call.text, FieldCode.function, FieldCode.number, codec_ofField, field_ofField]
  unfold fieldCall Condition.around
  simp only [statementOf, htext, field_ofField, ident_ofField]
  cases hc : f.cardinality with
  | optional | required =>
    simp [conditionOf, Condition.head?, ifSome, ifLet, ident_ofField, Field.isRepeated,
      Extent.function, Argument.text, hc]
  | implicit =>
    simp [head?_conditionOf s home hc, Field.isRepeated, Extent.function, Argument.text, hc]
  | repeated =>
    cases f.packed <;>
      simp [conditionOf, Condition.head?, Field.isRepeated, Extent.function, Argument.text, hc]

theorem conditionOf_madeOf (f : Field) : ∀ i ∈ (conditionOf f).ident?, IsMadeOf ['#'] i := by
  intro i hi
  have hident : i = Ident.field f.name := by
    unfold conditionOf at hi
    split at hi
    · exact (Option.mem_some.mp hi).symm
    · exact (Option.mem_some.mp hi).symm
    · cases hi
    · split at hi <;> exact (Option.mem_some.mp hi).symm
  rw [hident]
  exact ident_madeOf f.name

theorem argument_statementOf_madeOf (f : Field) :
    ∀ i ∈ (statementOf f).call.argument.ident?, IsMadeOf ['#'] i := by
  intro i hi
  have hident : i = Ident.field f.name := by
    unfold statementOf at hi
    dsimp only at hi
    split at hi
    · cases hi
    · cases hi
    · exact (Option.mem_some.mp hi).symm
    · exact (Option.mem_some.mp hi).symm
  rw [hident]
  exact ident_madeOf f.name

/-- **The calls of a method are read as those for its fields.** -/
theorem statements?_fields {family : String} (front : String) {close : String} {d : Char}
    (hfamily : IsPlain family) (hclose : close.toList.head? = some d)
    (hd : Lexer.isWordChar d = false) (hd' : d ∉ ['#', '&', '.']) (s : Schema) (home : ModulePath)
    (fields : List Field) :
    statements? (call? family front close)
        ((fields.map (.ofField s home)).flatMap (fieldCall family front close)) =
      some (fields.map statementOf) := by
  have hcode : (fields.map (.ofField s home)).flatMap (fieldCall family front close) =
      (fields.map statementOf).flatMap fun st =>
        st.condition.around (.line (st.call.text family front close)) := by
    rw [List.flatMap_map, List.flatMap_map]
    exact List.flatMap_congr fun f _ => fieldCall_ofField family front close s home f
  rw [hcode]
  refine statements?_flatMap (fun st hst => ?_) fun st hst => ?_
  · obtain ⟨f, -, rfl⟩ := List.mem_map.mp hst
    exact conditionOf_madeOf f
  · obtain ⟨f, -, rfl⟩ := List.mem_map.mp hst
    exact call?_text front hfamily (argument_statementOf_madeOf f) hclose hd hd'

/-! ### Arms -/

def Target.text : Target → String
  | field ident => "&mut self." ++ ident
  | inserted ident => "self." ++ ident ++ insertDefault

def Target.ident : Target → String
  | field ident | inserted ident => ident

def Arm.text (a : Arm) : String :=
  a.number.repr ++ " => " ++ codecFunction a.codec.name (a.extent.function "merge") ++
    "(wire_type, " ++ a.target.text ++ ", buf, ctx),"

theorem target?_text {t : Target} (h : IsMadeOf ['#'] t.ident) : target? t.text = some t := by
  cases t with
  | field ident => rw [Target.text, target?, behind?_eq, Option.map_some, Option.some_or]
  | inserted ident =>
    have hident : IsMadeOf ['#'] ident := h
    have hnone (rest : String) : behind? "&mut self." ("self." ++ rest) = none := by
      rw [behind?, isPrefixOf?_eq_none 1 (by decide) (by simp), Option.map_none]
    rw [Target.text, String.append_assoc, target?, hnone, Option.map_none, Option.none_or,
      piece?_eq _ ⟨'.', rfl, hident.notMem rfl (by decide)⟩, Option.map_some]

theorem target_madeOf {t : Target} (h : IsMadeOf ['#'] t.ident) :
    IsMadeOf ['#', '&', ' ', '.', '(', ')', ':'] t.text := by
  have hident : IsMadeOf ['#', '&', ' ', '.', '(', ')', ':'] t.ident := h.mono (by decide)
  cases t with
  | field ident =>
    have hfront : IsMadeOf ['#', '&', ' ', '.', '(', ')', ':'] "&mut self." := by decide
    exact hfront.append hident
  | inserted ident =>
    have hfront : IsMadeOf ['#', '&', ' ', '.', '(', ')', ':'] "self." := by decide
    have hclose : IsMadeOf ['#', '&', ' ', '.', '(', ')', ':'] insertDefault := by decide
    exact (hfront.append hident).append hclose

/-- **An arm is read as it was written.** -/
theorem arm?_text {a : Arm} (h : IsMadeOf ['#'] a.target.ident) : arm? a.text = some a := by
  have hnumber : Stops a.number.repr (" => " ++ library ++ "::encoding::") :=
    ⟨' ', rfl, (repr_madeOf [] _).notMem rfl (by decide)⟩
  have hplain : IsMadeOf [] (a.extent.function "merge") := function_madeOf (by decide) a.extent
  have hfunction : Stops (a.extent.function "merge") "(wire_type, " :=
    ⟨'(', rfl, hplain.notMem rfl (by decide)⟩
  have htarget : Stops a.target.text ", buf, ctx)," :=
    ⟨',', rfl, (target_madeOf h).notMem rfl (by decide)⟩
  have hpieces := pieces?_eq ""
    (l := [(a.number.repr, " => " ++ library ++ "::encoding::"), (a.codec.name, "::"),
      (a.extent.function "merge", "(wire_type, "), (a.target.text, ", buf, ctx),")])
    (by simp [a.codec.stops_name, hnumber, hfunction, htarget])
  simp only [List.map_cons, List.map_nil, String.join_cons, String.join_nil, String.append_empty,
    String.empty_append, String.append_assoc] at hpieces
  simp only [arm?, Arm.text, codecFunction, String.append_assoc, hpieces, a.codec.ofName?_name,
    extent?_function, nat?_repr, target?_text h]
  rfl

theorem ident_armOf (f : Field) : (armOf f).target.ident = Ident.field f.name := by
  unfold armOf
  cases f.cardinality <;> rfl

theorem mergeArm_ofField (s : Schema) (home : ModulePath) (f : Field) :
    mergeArm (.ofField s home f) = .line (armOf f).text := by
  have hassoc (a b c d e : String) : a ++ b ++ c ++ d ++ e = a ++ b ++ (c ++ d ++ e) := by
    simp only [String.append_assoc]
  have hinserted (ident : String) :
      "self." ++ ident ++ ".get_or_insert_with(" ++ defaultFunction ++ ")" =
        (Target.inserted ident).text :=
    hassoc ..
  unfold mergeArm
  simp only [Arm.text, armOf, FieldCode.function, FieldCode.number, codec_ofField, field_ofField,
    ident_ofField, hinserted]
  cases hc : f.cardinality with
  | optional | required | implicit =>
    have hone : f.isRepeated = false := by simp [Field.isRepeated, hc]
    rw [hone]
    rfl
  | repeated =>
    have hrepeated : f.isRepeated = true := by simp [Field.isRepeated, hc]
    rw [hrepeated]
    rfl

/-! ### Checks -/

def Check.ident : Check → String
  | isSome ident _ | inside ident | insideEach ident => ident

def Check.head : Check → String
  | isSome ident _ => "if self." ++ ident ++ ".is_none()"
  | inside ident => ifLet ++ ident
  | insideEach ident => "for value in &self." ++ ident

def Check.body : Check → List Code
  | isSome _ name =>
    enclosed missingHead
      [.line "message: Self::FULL_NAME,", .line ("field: " ++ Escape.quoted name ++ ",")] "\x7d);"
  | inside _ | insideEach _ => [.line (library ++ "::Message::check_initialized(value)?;")]

/-- The name that a check reports, if it reports one. -/
def Check.name? : Check → Option String
  | isSome _ name => some name
  | inside _ | insideEach _ => none

theorem missing?_body {ident name : String} (h : IsPlain name) :
    missing? (Check.isSome ident name).body = some name := by
  have hquoted : Stops (Escape.quoted name) "," :=
    ⟨',', rfl, (quoted_madeOf (.of_plain h)).notMem rfl (by decide)⟩
  have hpiece : piece? "field: " "," ("field: " ++ Escape.quoted name ++ ",") =
      some (Escape.quoted name) := by
    rw [String.append_assoc, piece?_eq _ hquoted]
  have hliteral : literal? (Escape.quoted name) = some name := literal?_quoted (.of_plain h)
  rw [Check.body, enclosed, missing?, if_pos ⟨rfl, rfl, rfl⟩, hpiece, Option.bind_some, hliteral]

theorem check?_head {c : Check} (hident : IsMadeOf ['#'] c.ident)
    (hname : ∀ name ∈ c.name?, IsPlain name) : check? (c.head ++ " \x7b") c.body = some c := by
  have hinside : [Code.line (library ++ "::Message::check_initialized(value)?;")].map text? =
      [some (library ++ "::Message::check_initialized(value)?;")] := rfl
  cases c with
  | isSome ident name =>
    have hstops : Stops ident ".is_none() \x7b" := ⟨'.', rfl, hident.notMem rfl (by decide)⟩
    have hlast : ".is_none()" ++ " \x7b" = ".is_none() \x7b" := rfl
    show check? ("if self." ++ ident ++ ".is_none()" ++ " \x7b") (Check.isSome ident name).body = _
    rw [head_append hlast, check?, piece?_eq _ hstops]
    exact congrArg (Option.map _) (missing?_body (hname name rfl))
  | inside ident =>
    have hstops : Stops ident " \x7b" := ⟨' ', rfl, hident.notMem rfl (by decide)⟩
    have hfirst : piece? "if self." ".is_none() \x7b" (ifLet ++ ident ++ " \x7b") = none :=
      piece?_of_front 4 (by decide) (by simp [ifLet]) _
    have hfor : piece? "for value in &self." " \x7b" (ifLet ++ ident ++ " \x7b") = none :=
      piece?_of_front 1 (by decide) (by simp [ifLet]) _
    show check? (ifLet ++ ident ++ " \x7b") [.line _] = _
    rw [check?, hfirst]
    dsimp only
    rw [if_pos hinside, hfor, String.append_assoc, piece?_eq _ hstops]
    rfl
  | insideEach ident =>
    have hstops : Stops ident " \x7b" := ⟨' ', rfl, hident.notMem rfl (by decide)⟩
    have hfirst : piece? "if self." ".is_none() \x7b" ("for value in &self." ++ ident ++ " \x7b") =
        none :=
      piece?_of_front 1 (by decide) (by simp) _
    show check? ("for value in &self." ++ ident ++ " \x7b") [.line _] = _
    rw [check?, hfirst]
    dsimp only
    rw [if_pos hinside, String.append_assoc, piece?_eq _ hstops]
    rfl

/-- **Checks are read as they were written.** -/
theorem checks?_flatMap {l : List Check} (hident : ∀ c ∈ l, IsMadeOf ['#'] c.ident)
    (hname : ∀ c ∈ l, ∀ name ∈ c.name?, IsPlain name) :
    checks? (l.flatMap (fun c => block c.head c.body) ++
      [.line "::core::result::Result::Ok(())"]) = some l := by
  induction l with
  | nil => rfl
  | cons c l ih =>
    obtain ⟨hidentC, hidentL⟩ := List.forall_mem_cons.mp hident
    obtain ⟨hnameC, hnameL⟩ := List.forall_mem_cons.mp hname
    rw [List.flatMap_cons, List.append_assoc, block, enclosed, List.cons_append, List.cons_append,
      List.cons_append, List.nil_append, checks?, check?_head hidentC hnameC, ih hidentL hnameL]
    simp

theorem ident_of_mem_checksOf {f : Field} {c : Check} (h : c ∈ checksOf f) :
    c.ident = Ident.field f.name ∧ ∀ name ∈ c.name?, name = f.name := by
  rcases List.mem_append.mp h with h | h
  · split at h
    · rw [List.mem_singleton.mp h]
      exact ⟨rfl, fun name hname => (Option.mem_some.mp hname).symm⟩
    · cases h
  · split at h
    · cases h
    split at h
    · rw [List.mem_singleton.mp h]
      exact ⟨rfl, nofun⟩
    · rw [List.mem_singleton.mp h]
      exact ⟨rfl, nofun⟩

theorem checkField_ofField (s : Schema) (home : ModulePath) (f : Field) :
    checkField (.ofField s home f) = (checksOf f).flatMap fun c => block c.head c.body := by
  have hmessage : (FieldCode.ofField s home f).isMessage = f.type.isMessage := by
    rw [FieldCode.isMessage, field_ofField]
    cases f.type <;> rfl
  have hone (c : Check) :
      [c].flatMap (fun c => block c.head c.body) = block c.head c.body :=
    List.flatMap_singleton ..
  unfold checkField checksOf
  dsimp only
  rw [hmessage, field_ofField, ident_ofField, List.flatMap_append]
  congr 1
  · split
    · rw [hone]
      rfl
    · rfl
  · split
    · rfl
    split
    · rw [hone]
      rfl
    · rw [hone, ifSome, ident_ofField]
      rfl

end Protobuf.MessageType

import Protobuf.Proofs.Code.WireCalls

/-! Reading the code of a message type.

Reading takes the fields of the struct, its full name and the calls of its methods out of the code
(`WireMethods.read`). The code of a message with plain names is read as the calls for its fields, in
the order of their numbers where they are written (`read_ownCode`). -/
namespace Protobuf.MessageType
open Code EnumType

/-! ### Methods -/

/-- What the code of a message type says: the full name, the fields with their types, and what each
method does. -/
structure WireMethods where
  fullName : String
  fields : List (String × String)
  encode : List Statement
  length : List Statement
  merge : List Arm
  check : List Check

/-- A field of the struct and its type. -/
def field? (text : String) : Option (String × String) :=
  ("pub ".toList.isPrefixOf? text.toList).bind fun rest =>
    (cut ": ".toList rest).bind fun first =>
      (",".toList.isSuffixOf? first.2).map fun type => (String.ofList first.1, String.ofList type)

/-- The head of the method that writes to a buffer of this name. -/
def encodeHead (buffer : String) : String :=
  "fn encode_raw<B: " ++ library ++ "::bytes::BufMut>(&self, " ++ buffer ++ ": &mut B)"

/-- What the first method writes. Its buffer has another name if it writes nothing. -/
def encode? (body : List Code) : Option (List Statement) :=
  match body with
  | .line head :: .indented inside :: _ =>
    if head = encodeHead "buf" ++ " \x7b" then statements? (call? "encode" "" ", buf);") inside
    else if head = encodeHead "_buf" ++ " \x7b" ∧ inside.isEmpty then some []
    else none
  | _ => none

/-- What is added up, if anything. -/
def sum? (body : List Code) : Option (List Statement) :=
  if body.map text? = [some "0"] then some []
  else if body.head?.bind text? = some "let mut len = 0;" ∧
      body.getLast?.bind text? = some "len" then
    statements? (call? "encoded_len" "len += " ");") body.tail.dropLast
  else none

def length? (body : List Code) : Option (List Statement) :=
  (bodyOf? "fn encoded_len(&self) -> usize" body).bind sum?

/-- The parameters of the method that reads a field. -/
def mergeParameters : List String :=
  ["&mut self,", "tag: u32,", "wire_type: " ++ library ++ "::encoding::WireType,",
    "buf: &mut B,", "ctx: " ++ library ++ "::encoding::DecodeContext,"]

/-- The arms of a match, of which the last skips all other fields. -/
def arms? (body : List Code) : Option (List Arm) :=
  if body.getLast?.bind text? =
      some ("_ => " ++ library ++ "::encoding::skip_field(wire_type, tag, buf, ctx),") then
    body.dropLast.mapM (·.text?.bind arm?)
  else none

def merge? (body : List Code) : Option (List Arm) :=
  (below? ("fn merge_field<B: " ++ library ++ "::bytes::Buf>(") body).bind fun parameters =>
    (bodyOf? (") -> ::core::result::Result<(), " ++ library ++ "::DecodeError>") body).bind
      fun inside =>
        if parameters.map text? = mergeParameters.map some then
          (bodyOf? "match tag" inside).bind arms?
        else none

/-- Whether a message is cleared by putting a default one in its place. -/
def clears (body : List Code) : Bool :=
  (bodyOf? "fn clear(&mut self)" body).any fun inside =>
    inside.map text? = [some ("*self = " ++ defaultFunction ++ "();")]

def checkMethod? (body : List Code) : Option (List Check) :=
  (bodyOf? ("fn check_initialized(&self) -> ::core::result::Result<(), " ++ library ++
    "::DecodeError>") body).bind checks?

/-- The full name, from the first line of the type's own methods. -/
def fullName? (body : List Code) : Option String :=
  ((body.head?.bind text?).bind (piece? "pub const FULL_NAME: &'static str = " ";")).bind literal?

/-- Reads the code of the message type with this name. -/
def WireMethods.read (name : String) (code : List Code) : Option WireMethods :=
  if code.head?.bind text? = some "#[derive(Clone, PartialEq, Debug, Default)]" then do
    let fields ← (bodyOf? ("pub struct " ++ name) code).bind (·.mapM (·.text?.bind field?))
    let fullName ← (bodyOf? ("impl " ++ name) code).bind fullName?
    let body ← bodyOf? ("impl " ++ library ++ "::Message for " ++ name) code
    if clears body then
      return ⟨fullName, fields, ← encode? body, ← length? body, ← merge? body, ← checkMethod? body⟩
    else none
  else none

/-- The fields in the order of their numbers. -/
def sorted (fields : List Field) : List Field :=
  fields.mergeSort fun a b => a.number ≤ b.number

/-- What the code of a message says. -/
def wireMethods (s : Schema) (m : Message) : WireMethods where
  fullName := m.fullName.dotted
  fields := (m.fieldCodes s).map fun f => (f.ident, f.storage)
  encode := (sorted m.fields).map statementOf
  length := (sorted m.fields).map statementOf
  merge := m.fields.map armOf
  check := m.fields.flatMap checksOf

/-! ### What is written for fields -/

theorem line_notMem_block {text head : String} (hhead : text ≠ head ++ " \x7b")
    (hclose : text.toList.head? ≠ some '\x7d') (body : List Code) :
    .line text ∉ block head body := by
  have hne : text ≠ "\x7d" := by
    rintro rfl
    exact hclose rfl
  simp [block, enclosed, hhead, hne]

theorem byNumber_map (s : Schema) (home : ModulePath) (fields : List Field) :
    byNumber (fields.map (.ofField s home)) = (sorted fields).map (.ofField s home) := by
  rw [byNumber, sorted, List.map_mergeSort]
  intro a _ b _
  rw [field_ofField, field_ofField]

/-- The methods for some fields. -/
def wireBody (fields : List FieldCode) : List Code :=
  spaced [encodeMethod fields, mergeMethod fields, lengthMethod fields, checkMethod fields,
    clearMethod]

theorem wireBody_eq (fields : List FieldCode) :
    wireBody fields = encodeMethod fields ++ .gap :: (mergeMethod fields ++
      .gap :: (lengthMethod fields ++ .gap :: (checkMethod fields ++ .gap :: clearMethod))) := rfl

section
variable (s : Schema) (home : ModulePath) (fields : List Field)

theorem encode?_wireBody :
    encode? (wireBody (fields.map (.ofField s home))) = some ((sorted fields).map statementOf) := by
  have hbuffer (front a b close last : String)
      (h : front ++ a ++ close ++ last = front ++ b ++ close ++ last) : a = b := by
    simpa using h
  have hhead : encodeHead "_buf" ++ " \x7b" ≠ encodeHead "buf" ++ " \x7b" := fun heq =>
    absurd (hbuffer _ _ _ _ _ heq) (by decide)
  rw [wireBody, spaced, encodeMethod, block, enclosed, byNumber_map]
  · show encode? (.line (encodeHead _ ++ " \x7b") :: .indented _ :: _) = _
    cases fields with
    | nil =>
      have hnil : sorted [] = [] := List.mergeSort_nil
      rw [hnil, encode?]
      show (if encodeHead "_buf" ++ " \x7b" = _ then _ else _) = _
      rw [if_neg hhead, if_pos ⟨rfl, rfl⟩]
      rfl
    | cons f fields =>
      rw [encode?]
      show (if encodeHead "buf" ++ " \x7b" = _ then _ else _) = _
      rw [if_pos rfl]
      exact statements?_fields "" (List.all_eq_true.mp rfl) rfl rfl (by decide) s home _
  · intro hnil
    cases hnil

/-- What begins otherwise than a method is not a line of it. -/
theorem line_notMem_encodeMethod {text : String} (h : text.toList.take 10 ≠ "fn encode_".toList)
    (hclose : text.toList.head? ≠ some '\x7d') (codes : List FieldCode) :
    .line text ∉ encodeMethod codes := by
  refine line_notMem_block (ne_of_take 10 ?_) hclose _
  simpa using h

theorem line_notMem_mergeMethod {text : String} (h : text.toList.take 4 ≠ "fn m".toList)
    (hresult : text.toList.head? ≠ some ')') (hclose : text.toList.head? ≠ some '\x7d')
    (codes : List FieldCode) : .line text ∉ mergeMethod codes := by
  intro hmem
  rcases List.mem_append.mp hmem with hmem | hmem
  · simp only [List.mem_cons, Code.line.injEq, reduceCtorEq, List.not_mem_nil, or_false] at hmem
    rw [hmem] at h
    simp at h
  · refine line_notMem_block (fun heq => hresult ?_) hclose _ hmem
    rw [heq]
    simp

theorem line_notMem_lengthMethod {text : String} (h : text.toList.take 10 ≠ "fn encoded".toList)
    (hclose : text.toList.head? ≠ some '\x7d') (codes : List FieldCode) :
    .line text ∉ lengthMethod codes := by
  refine line_notMem_block (ne_of_take 10 ?_) hclose _
  simpa using h

theorem line_notMem_checkMethod {text : String} (h : text.toList.take 5 ≠ "fn ch".toList)
    (hclose : text.toList.head? ≠ some '\x7d') (codes : List FieldCode) :
    .line text ∉ checkMethod codes := by
  refine line_notMem_block (ne_of_take 5 ?_) hclose _
  simpa using h

theorem arms?_fields :
    arms? ((fields.map (.ofField s home)).map mergeArm ++
      [.line ("_ => " ++ library ++ "::encoding::skip_field(wire_type, tag, buf, ctx),")]) =
      some (fields.map armOf) := by
  have hlines : (fields.map (.ofField s home)).map mergeArm =
      fields.map fun f => .line (armOf f).text := by
    rw [List.map_map]
    exact List.map_congr_left fun f _ => mergeArm_ofField s home f
  rw [arms?, List.getLast?_concat, List.dropLast_concat, Option.bind_some, text?, if_pos rfl,
    hlines]
  refine mapM_lines fun f _ => arm?_text ?_
  rw [ident_armOf]
  exact ident_madeOf f.name

theorem merge?_wireBody :
    merge? (wireBody (fields.map (.ofField s home))) = some (fields.map armOf) := by
  have hparameters : below? ("fn merge_field<B: " ++ library ++ "::bytes::Buf>(")
      (wireBody (fields.map (.ofField s home))) = some (mergeParameters.map .line) := by
    rw [wireBody_eq, below?_append (line_notMem_encodeMethod (by simp) (by simp) _),
      below?_cons (by simp)]
    exact below?_line _ _ _
  have hresult : Code.line ("fn merge_field<B: " ++ library ++ "::bytes::Buf>(") ≠
      .line (") -> ::core::result::Result<(), " ++ library ++ "::DecodeError>" ++ " \x7b") :=
    fun heq => ne_of_take 1 (by simp) (Code.line.inj heq)
  have hinside : bodyOf? (") -> ::core::result::Result<(), " ++ library ++ "::DecodeError>")
      (wireBody (fields.map (.ofField s home))) =
        some (block "match tag" ((fields.map (.ofField s home)).map mergeArm ++ [.line
          ("_ => " ++ library ++ "::encoding::skip_field(wire_type, tag, buf, ctx),")])) := by
    rw [wireBody_eq, bodyOf?_part (line_notMem_encodeMethod (by simp) (by simp) _), mergeMethod,
      List.append_assoc, List.cons_append, List.cons_append, List.nil_append, bodyOf?_cons hresult,
      bodyOf?_cons (by simp), bodyOf?_block]
  rw [merge?, hparameters, Option.bind_some, hinside, Option.bind_some, if_pos, bodyOf?_block_alone,
    Option.bind_some, arms?_fields]
  rw [List.map_map]
  rfl

theorem sum?_lines (body : List Code) :
    sum? (.line "let mut len = 0;" :: body ++ [.line "len"]) =
      statements? (call? "encoded_len" "len += " ");") body := by
  have hzero : (Code.line "let mut len = 0;" :: body ++ [Code.line "len"]).map text? ≠
      [some "0"] := by
    simp
  rw [sum?, if_neg hzero, List.getLast?_concat, List.cons_append, List.tail_cons,
    List.dropLast_concat]
  exact if_pos ⟨rfl, rfl⟩

theorem length?_wireBody :
    length? (wireBody (fields.map (.ofField s home))) = some ((sorted fields).map statementOf) := by
  have hfound : length? (wireBody (fields.map (.ofField s home))) =
      sum? (if (fields.map (FieldCode.ofField s home)).isEmpty then [.line "0"]
        else .line "let mut len = 0;" ::
          (byNumber (fields.map (.ofField s home))).flatMap lengthField ++ [.line "len"]) := by
    rw [length?, wireBody_eq, bodyOf?_part (line_notMem_encodeMethod (by simp) (by simp) _),
      bodyOf?_part (line_notMem_mergeMethod (by simp) (by simp) (by simp) _), lengthMethod,
      bodyOf?_block, Option.bind_some]
  rw [hfound]
  cases fields with
  | nil =>
    have hnil : sorted [] = [] := List.mergeSort_nil
    rw [hnil]
    rfl
  | cons f fields =>
    rw [if_neg (by simp), sum?_lines, byNumber_map]
    exact statements?_fields "len += " (List.all_eq_true.mp rfl) rfl rfl (by decide) s home _

theorem clears_wireBody (codes : List FieldCode) : clears (wireBody codes) = true := by
  rw [clears, wireBody_eq, bodyOf?_part (line_notMem_encodeMethod (by simp) (by simp) _),
    bodyOf?_part (line_notMem_mergeMethod (by simp) (by simp) (by simp) _),
    bodyOf?_part (line_notMem_lengthMethod (by simp) (by simp) _),
    bodyOf?_part (line_notMem_checkMethod (by simp) (by simp) _), clearMethod,
    bodyOf?_block_alone, Option.any_some]
  exact decide_eq_true rfl

theorem checkMethod?_wireBody (hplain : ∀ f ∈ fields, IsPlain f.name) :
    checkMethod? (wireBody (fields.map (.ofField s home))) = some (fields.flatMap checksOf) := by
  have hlines : (fields.map (.ofField s home)).flatMap checkField =
      (fields.flatMap checksOf).flatMap fun c => block c.head c.body := by
    rw [List.flatMap_map, List.flatMap_assoc]
    exact List.flatMap_congr fun f _ => checkField_ofField s home f
  rw [checkMethod?, wireBody_eq, bodyOf?_part (line_notMem_encodeMethod (by simp) (by simp) _),
    bodyOf?_part (line_notMem_mergeMethod (by simp) (by simp) (by simp) _),
    bodyOf?_part (line_notMem_lengthMethod (by simp) (by simp) _), checkMethod,
    bodyOf?_block, Option.bind_some, hlines]
  refine checks?_flatMap (fun c hc => ?_) fun c hc name hname => ?_
  · obtain ⟨f, -, hc⟩ := List.mem_flatMap.mp hc
    rw [(ident_of_mem_checksOf hc).1]
    exact ident_madeOf f.name
  · obtain ⟨f, hf, hc⟩ := List.mem_flatMap.mp hc
    rw [(ident_of_mem_checksOf hc).2 name hname]
    exact hplain f hf

end

/-! ### The type as a whole -/

theorem field?_line (ident type : String) (h : IsMadeOf ['#'] ident) :
    field? ("pub " ++ ident ++ ": " ++ type ++ ",") = some (ident, type) := by
  have hfront : "pub ".toList.isPrefixOf? ("pub " ++ ident ++ ": " ++ type ++ ",").toList =
      some (ident.toList ++ (": ".toList ++ (type.toList ++ ",".toList))) :=
    List.isPrefixOf?_eq_some_iff_append_eq.mpr (by simp)
  have hcut : cut ": ".toList (ident.toList ++ (": ".toList ++ (type.toList ++ ",".toList))) =
      some (ident.toList, type.toList ++ ",".toList) :=
    cut_append rfl (h.notMem rfl (by decide)) (type.toList ++ ",".toList)
  have hclose : ",".toList.isSuffixOf? (type.toList ++ ",".toList) = some type.toList :=
    List.isSuffixOf?_eq_some_iff_append_eq.mpr rfl
  rw [field?, hfront, Option.bind_some, hcut, Option.bind_some, hclose, Option.map_some,
    String.ofList_toList, String.ofList_toList]

theorem dotted_madeOf {name : QualifiedName} (h : ∀ part ∈ name, IsPlain part) :
    IsMadeOf ['.'] name.dotted := by
  unfold QualifiedName.dotted
  induction name with
  | nil => decide
  | cons part name ih =>
    obtain ⟨hpart, hname⟩ := List.forall_mem_cons.mp h
    cases name with
    | nil =>
      rw [String.intercalate_singleton]
      exact .of_plain hpart
    | cons next name =>
      have hdot : IsMadeOf ['.'] "." := by decide
      rw [String.intercalate_cons_cons]
      exact ((IsMadeOf.of_plain hpart).append hdot).append (ih hname)

section
variable {s : Schema} {m : Message}

theorem line_notMem_declaration {text : String} (h : text.toList.head? = some 'i') (name : String)
    (codes : List FieldCode) : .line text ∉ declaration name codes := by
  intro hmem
  rcases List.mem_cons.mp hmem with heq | hmem
  · cases heq
    simp at h
  · refine line_notMem_block (fun heq => ?_) (by simp [h]) _ hmem
    rw [heq] at h
    simp at h

theorem ownCode_eq (s : Schema) (m : Message) (rest : List Code) :
    ownCode s m ++ rest = declaration (Ident.escape m.name) (m.fieldCodes s) ++
      .gap :: (methodImpl s m (Ident.escape m.name) (m.fieldCodes s) ++
        .gap :: (wireImpl (Ident.escape m.name) (m.fieldCodes s) ++ rest)) := by
  rw [ownCode]
  simp only [spaced, List.append_assoc, List.cons_append, Message.fieldCodes]

theorem fields_ownCode (rest : List Code) :
    (bodyOf? ("pub struct " ++ Ident.escape m.name) (ownCode s m ++ rest)).bind
        (·.mapM (·.text?.bind field?)) =
      some ((m.fieldCodes s).map fun f => (f.ident, f.storage)) := by
  have hfirst : Code.line "#[derive(Clone, PartialEq, Debug, Default)]" ≠
      .line ("pub struct " ++ Ident.escape m.name ++ " \x7b") :=
    fun heq => ne_of_take 1 (by simp) (Code.line.inj heq)
  rw [ownCode_eq, declaration, List.cons_append, bodyOf?_cons hfirst, bodyOf?_block,
    Option.bind_some]
  refine mapM_lines fun f hf => field?_line _ _ ?_
  obtain ⟨g, -, rfl⟩ := List.mem_map.mp hf
  rw [ident_ofField]
  exact ident_madeOf g.name

theorem fullName_ownCode (hfull : ∀ part ∈ m.fullName, IsPlain part) (rest : List Code) :
    (bodyOf? ("impl " ++ Ident.escape m.name) (ownCode s m ++ rest)).bind fullName? =
      some m.fullName.dotted := by
  have hquoted : Stops (Escape.quoted m.fullName.dotted) ";" :=
    ⟨';', rfl, (quoted_madeOf (dotted_madeOf hfull)).notMem rfl (by decide)⟩
  rw [ownCode_eq, bodyOf?_part (line_notMem_declaration (by simp) _ _), methodImpl, bodyOf?_block,
    Option.bind_some, fullName?, List.head?_cons, Option.bind_some, text?, Option.bind_some,
    String.append_assoc, piece?_eq _ hquoted, Option.bind_some,
    literal?_quoted (dotted_madeOf hfull)]

theorem body_ownCode (rest : List Code) :
    bodyOf? ("impl " ++ library ++ "::Message for " ++ Ident.escape m.name) (ownCode s m ++ rest) =
      some (wireBody (m.fieldCodes s)) := by
  have himpl : "impl " ++ library ++ "::Message for " ++ Ident.escape m.name ++ " \x7b" ≠
      "impl " ++ Ident.escape m.name ++ " \x7b" := by
    generalize Ident.escape m.name = name
    intro heq
    have hlength := congrArg String.length heq
    simp only [String.length_append, show library.length = 15 from rfl] at hlength
    omega
  rw [ownCode_eq, bodyOf?_part (line_notMem_declaration (by simp) _ _), methodImpl,
    bodyOf?_part (line_notMem_block himpl (by simp) _), wireImpl, bodyOf?_block]
  rfl

/-- **The code of a message is read as the calls for its fields.** -/
theorem read_ownCode (hfull : ∀ part ∈ m.fullName, IsPlain part)
    (hfields : ∀ f ∈ m.fields, IsPlain f.name) (rest : List Code) :
    WireMethods.read (Ident.escape m.name) (ownCode s m ++ rest) = some (wireMethods s m) := by
  have hderives : (ownCode s m ++ rest).head?.bind text? =
      some "#[derive(Clone, PartialEq, Debug, Default)]" := by
    rw [ownCode_eq]
    rfl
  rw [WireMethods.read, if_pos hderives, fields_ownCode, fullName_ownCode hfull, body_ownCode]
  simp only [Option.bind_eq_bind, Option.bind_some, Message.fieldCodes, clears_wireBody,
    checkMethod?_wireBody _ _ _ hfields, encode?_wireBody, length?_wireBody, merge?_wireBody]
  rfl

end

end Protobuf.MessageType

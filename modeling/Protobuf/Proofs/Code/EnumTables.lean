import Protobuf.Proofs.Code.Reading
import Protobuf.Proofs.Code.RelativePaths
import Protobuf.Proofs.Code.Variants

/-! Reading the code of an enum type.

What generated code does is found in its text: the declaration gives each variant a number, a
constant stands for a variant, and a conversion is a match, whose arms are tried in order. Reading
takes these tables out of the lines (`Tables.read`) and resolves every identifier on the way, so
that it fails where an arm names neither a variant nor a constant. The code of an enum with plain
names and different identifiers is read as the tables of its variants and aliases (`read_code`). -/
namespace Protobuf

/-! ### Tables -/

namespace EnumType
open Code

/-- What the code of an enum type says: the variants with their numbers, the constants with the
variants they stand for, and an entry for each arm of a conversion. -/
structure Tables where
  variants : List (String × Int)
  constants : List (String × String)
  names : List (String × String)
  byName : List (String × String)
  byNumber : List (Int × String)

/-- The text of a string literal without escapes. -/
def literal? (text : String) : Option String :=
  (['"'].isPrefixOf? text.toList).bind fun rest =>
    (cut ['"'] rest).bind fun body =>
      if body.2 = [] ∧ '\\' ∉ body.1 then some (String.ofList body.1) else none

/-- A variant and its number. -/
def variant? (text : String) : Option (String × Int) :=
  (parts? "" " = " "," text).bind fun p => (int? p.2).map (Prod.mk p.1)

/-- A constant of the type with this name, and the variant it stands for. -/
def constant? (name : String) (code : Code) : Option (String × String) :=
  code.text?.bind (parts? "pub const " (": " ++ name ++ " = " ++ name ++ "::") ";")

/-- The variant that an identifier leads to: it is one, or a constant stands for it. -/
def resolve (variants : List String) (constants : List (String × String)) (ident : String) :
    Option String :=
  if ident ∈ variants then some ident
  else ((constants.find? (·.1 == ident)).map (·.2)).filter (· ∈ variants)

section Conversions
variable (self : String → Option String)

/-- An arm that gives the name of a variant. -/
def nameArm? (text : String) : Option (String × String) :=
  (parts? "Self::" " => " "," text).bind fun p =>
    (self p.1).bind fun variant => (literal? p.2).map (Prod.mk variant)

/-- The names that a function gives to the variants. -/
def names? (function : String) (body : List Code) : Option (List (String × String)) :=
  (bodyOf? function body).bind fun inside =>
    (bodyOf? "match self" inside).bind (·.mapM (·.text?.bind (nameArm? self)))

/-- An arm that leads from a key to a variant. -/
def arm? (key? : String → Option κ) (text : String) : Option (κ × String) :=
  (parts? "" (" => " ++ optionType ++ "::Some(Self::") ")," text).bind fun p =>
    (key? p.1).bind fun key => (self p.2).map (Prod.mk key)

/-- The arms of a match, of which the last gives nothing for all other values. -/
def arms? (key? : String → Option κ) (body : List Code) : Option (List (κ × String)) :=
  if body.getLast?.bind text? = some ("_ => " ++ optionType ++ "::None,") then
    body.dropLast.mapM (·.text?.bind (arm? self key?))
  else none

/-- The keys from which a function leads to variants. -/
def keys? (key? : String → Option κ) (function : String) (body : List Code) :
    Option (List (κ × String)) :=
  (bodyOf? function body).bind fun inside =>
    (bodyOf? "match value" inside).bind (arms? self key?)

end Conversions

/-- What the conversion of the type with this name to a number consists of. -/
def conversion? (name : String) (code : List Code) : Option (List String) :=
  (bodyOf? ("impl ::core::convert::From<" ++ name ++ "> for i32") code).bind fun inside =>
    (bodyOf? ("fn from(value: " ++ name ++ ") -> i32") inside).bind (·.mapM text?)

namespace Tables

/-- Reads the code of the enum type with this name. Any text between the marks of a line counts as a
name; identifiers are compared and not looked at. -/
def read (name : String) (code : List Code) : Option Tables := do
  let lines ← bodyOf? ("pub enum " ++ name) code
  let variants ← lines.mapM (·.text?.bind variant?)
  let body ← bodyOf? ("impl " ++ name) code
  let constants := body.filterMap (constant? name)
  let self := resolve (variants.map (·.1)) constants
  let names ← names? self "pub fn as_str_name(&self) -> &'static str" body
  let byName ← keys? self literal?
    ("pub fn from_str_name(value: &str) -> " ++ optionType ++ "<Self>") body
  let byNumber ← keys? self int?
    ("pub fn from_i32(value: i32) -> " ++ optionType ++ "<Self>") body
  -- The number of a variant is the declared one only if the conversion is a plain cast.
  guard (conversion? name code = some ["value as i32"])
  return ⟨variants, constants, names, byName, byNumber⟩

/-- The number that a variant is converted to. -/
def toNumber? (t : Tables) (variant : String) : Option Int :=
  (t.variants.find? (·.1 == variant)).map (·.2)

/-- The name of a variant. -/
def toName? (t : Tables) (variant : String) : Option String :=
  (t.names.find? (·.1 == variant)).map (·.2)

/-- The variant that a name is converted to. -/
def ofName? (t : Tables) (name : String) : Option String :=
  (t.byName.find? (·.1 == name)).map (·.2)

/-- The variant that a number is converted to. -/
def ofNumber? (t : Tables) (number : Int32) : Option String :=
  (t.byNumber.find? (·.1 == number.toInt)).map (·.2)

end Tables

/-- The tables for the variants and aliases of an enum. -/
def tables (e : Enum) : Tables where
  variants := e.variants.map fun v => (variantIdent v, v.number.toInt)
  constants := e.aliases.map fun v => (variantIdent v, aliasTarget e v)
  names := e.variants.map fun v => (variantIdent v, v.name)
  byName := (e.variants ++ e.aliases).map fun v => (v.name, aliasTarget e v)
  byNumber := e.variants.map fun v => (v.number.toInt, aliasTarget e v)

/-! ### Characters -/

theorem notMem_variantIdent {c : Char} (hc : Lexer.isWordChar c = false) (hraw : c ≠ '#')
    (v : EnumValue) : c ∉ (variantIdent v).toList :=
  Ident.notMem_escape (Ident.pascal_plain v.name) hc hraw

theorem notMem_aliasTarget {c : Char} (hc : Lexer.isWordChar c = false) (hraw : c ≠ '#')
    (e : Enum) (v : EnumValue) : c ∉ (aliasTarget e v).toList := by
  unfold aliasTarget
  split
  · exact notMem_variantIdent hc hraw _
  · simp

theorem notMem_repr {c : Char} (hc : c.isDigit = false) (hminus : c ≠ '-') (n : Int) :
    c ∉ n.repr.toList := by
  have hdigits (k : Nat) : c ∉ k.repr.toList := by
    rw [Nat.repr_eq_ofList_toDigits, String.toList_ofList]
    intro hmem
    rw [Nat.isDigit_of_mem_toDigits (by decide) (by decide) hmem] at hc
    cases hc
  rw [Int.repr_eq_if]
  split
  · exact hdigits _
  · simpa [hminus] using hdigits _

theorem quotedChar_of_isWordChar {c : Char} (h : Lexer.isWordChar c = true) :
    Escape.quotedChar c = [c] := by
  have halphanum : ∀ n < 128, (Char.ofNat n).isAlphanum = true →
      Escape.quotedChar (Char.ofNat n) = [Char.ofNat n] := by decide +kernel
  rcases Bool.or_eq_true_iff.mp h with hc | hc
  · exact Ident.forall_isAlphanum (P := fun c => Escape.quotedChar c = [c]) halphanum hc
  · rw [beq_iff_eq.mp hc]
    decide +kernel

/-- A text of letters, digits, underscores and these characters. -/
def IsMadeOf (others : List Char) (text : String) : Prop :=
  ∀ c ∈ text.toList, Lexer.isWordChar c = true ∨ c ∈ others

instance (others : List Char) (text : String) : Decidable (IsMadeOf others text) :=
  decidable_of_iff (text.toList.all fun c => Lexer.isWordChar c || others.contains c) <| by
    simp [IsMadeOf]

namespace IsMadeOf
variable {others : List Char} {text : String}

theorem of_plain (h : IsPlain text) : IsMadeOf others text :=
  fun c hc => .inl (h c hc)

theorem append {a b : String} (ha : IsMadeOf others a) (hb : IsMadeOf others b) :
    IsMadeOf others (a ++ b) := by
  intro c hc
  rw [String.toList_append] at hc
  rcases List.mem_append.mp hc with hc | hc
  · exact ha c hc
  · exact hb c hc

theorem mono {more : List Char} (h : IsMadeOf others text) (hmore : others ⊆ more) :
    IsMadeOf more text :=
  fun c hc => (h c hc).imp_right fun hmem => hmore hmem

theorem notMem (h : IsMadeOf others text) {c : Char} (hc : Lexer.isWordChar c = false)
    (hother : c ∉ others) : c ∉ text.toList := by
  intro hmem
  rcases h c hmem with hword | hmem
  · rw [hword] at hc
    cases hc
  · exact hother hmem

end IsMadeOf

/-- Plain names, with dots between them or without, are quoted as they are. -/
theorem quoted_eq {text : String} (h : IsMadeOf ['.'] text) :
    Escape.quoted text = String.ofList ('"' :: text.toList ++ ['"']) := by
  have hdot : Escape.quotedChar '.' = ['.'] := by decide +kernel
  have hchars : text.toList.flatMap Escape.quotedChar = text.toList.flatMap fun c => [c] := by
    refine List.flatMap_congr fun c hc => ?_
    rcases h c hc with hword | hmem
    · exact quotedChar_of_isWordChar hword
    · rw [List.mem_singleton.mp hmem]
      exact hdot
  rw [Escape.quoted, hchars, List.flatMap_singleton']

theorem literal?_quoted {text : String} (h : IsMadeOf ['.'] text) :
    literal? (Escape.quoted text) = some text := by
  have hbackslash : '\\' ∉ text.toList := h.notMem rfl (by decide)
  have hcut : cut ['"'] (text.toList ++ ['"']) = some (text.toList, []) :=
    cut_append rfl (h.notMem rfl (by decide)) []
  have hopen : ['"'].isPrefixOf? ('"' :: text.toList ++ ['"']) = some (text.toList ++ ['"']) :=
    List.isPrefixOf?_eq_some_iff_append_eq.mpr rfl
  rw [literal?, quoted_eq h, String.toList_ofList, hopen, Option.bind_some, hcut,
    Option.bind_some, if_pos ⟨rfl, hbackslash⟩, String.ofList_toList]

theorem quoted_madeOf {text : String} (h : IsMadeOf ['.'] text) :
    IsMadeOf ['.', '"'] (Escape.quoted text) := by
  intro c hc
  rw [quoted_eq h, String.toList_ofList] at hc
  rcases List.mem_append.mp hc with hc | hc
  · rcases List.mem_cons.mp hc with rfl | hc
    · exact .inr (by decide)
    · exact h.mono (by decide) c hc
  · rw [List.mem_singleton.mp hc]
    exact .inr (by decide)

/-! ### Lines -/

theorem variant?_line (v : EnumValue) :
    variant? (variantIdent v ++ " = " ++ v.number.toInt.repr ++ ",") =
      some (variantIdent v, v.number.toInt) := by
  have hident : Stops (variantIdent v) " = " :=
    ⟨' ', rfl, notMem_variantIdent rfl (by decide) v⟩
  have hnumber : Stops v.number.toInt.repr "," := ⟨',', rfl, notMem_repr rfl (by decide) _⟩
  have hparts := parts?_eq "" hident hnumber
  rw [String.empty_append] at hparts
  rw [variant?, String.append_assoc, String.append_assoc, hparts, Option.bind_some,
    int?_repr, Option.map_some]

theorem nameArm?_line {self : String → Option String} {v : EnumValue} (h : IsPlain v.name)
    (hself : self (variantIdent v) = some (variantIdent v)) :
    nameArm? self ("Self::" ++ variantIdent v ++ " => " ++ Escape.quoted v.name ++ ",") =
      some (variantIdent v, v.name) := by
  have hident : Stops (variantIdent v) " => " :=
    ⟨' ', rfl, notMem_variantIdent rfl (by decide) v⟩
  have hname : Stops (Escape.quoted v.name) "," :=
    ⟨',', rfl, (quoted_madeOf (.of_plain h)).notMem rfl (by decide)⟩
  have hparts := parts?_eq "Self::" hident hname
  rw [nameArm?, String.append_assoc, String.append_assoc, String.append_assoc, hparts]
  simp [hself, literal?_quoted (.of_plain h)]

theorem arm?_line {key? : String → Option κ} {self : String → Option String} {v : EnumValue}
    {text target : String} {key : κ} (hkey : key? text = some key) (htext : ' ' ∉ text.toList)
    (hself : self (variantIdent v) = some target) :
    arm? self key? (text ++ " => " ++ optionType ++ "::Some(Self::" ++ variantIdent v ++ "),") =
      some (key, target) := by
  have htext : Stops text (" => " ++ optionType ++ "::Some(Self::") := ⟨' ', rfl, htext⟩
  have hident : Stops (variantIdent v) ")," := ⟨')', rfl, notMem_variantIdent rfl (by decide) v⟩
  have hparts := parts?_eq "" htext hident
  rw [String.empty_append] at hparts
  have hline : text ++ " => " ++ optionType ++ "::Some(Self::" ++ variantIdent v ++ ")," =
      text ++ (" => " ++ optionType ++ "::Some(Self::" ++ (variantIdent v ++ "),")) := by
    simp only [String.append_assoc]
  rw [arm?, hline, hparts]
  simp [hkey, hself]

theorem constant?_line (name : String) (e : Enum) (v : EnumValue) :
    constant? name (.line ("pub const " ++ variantIdent v ++ ": " ++ name ++ " = " ++ name ++
      "::" ++ aliasTarget e v ++ ";")) = some (variantIdent v, aliasTarget e v) := by
  have hident : Stops (variantIdent v) (": " ++ name ++ " = " ++ name ++ "::") :=
    ⟨':', by simp, notMem_variantIdent rfl (by decide) v⟩
  have htarget : Stops (aliasTarget e v) ";" := ⟨';', rfl, notMem_aliasTarget rfl (by decide) e v⟩
  have hparts := parts?_eq "pub const " hident htarget
  simp only [String.append_assoc] at hparts ⊢
  simpa only [constant?, text?, Option.bind_some, String.append_assoc] using hparts

/-- The line with the full name is no constant of the type. -/
theorem constant?_fullName {name : String} (h : '&' ∉ name.toList) (value : String) :
    constant? name (.line ("pub const FULL_NAME: &'static str = " ++ value ++ ";")) = none := by
  have hfront (text : List Char) :
      "pub const ".toList.isPrefixOf? ("pub const FULL_NAME: &'static str = ".toList ++ text) =
        some ("FULL_NAME: &'static str = ".toList ++ text) :=
    List.isPrefixOf?_eq_some_iff_append_eq.mpr (by simp)
  have hcut (text : List Char) : cut (": " ++ name ++ " = " ++ name ++ "::").toList
      ("FULL_NAME: &'static str = ".toList ++ text) = none := by
    refine Option.map_eq_none_iff.mpr (Option.eq_none_iff_forall_ne_some.mpr fun rest hrest => ?_)
    have hthird := congrArg (·[2]?) (List.append_eq_of_isPrefixOf?_eq_some hrest)
    cases hname : name.toList <;> simp [hname] at hthird
    rw [hthird] at hname
    exact h (hname ▸ List.mem_cons_self)
  rw [constant?, text?, Option.bind_some, parts?, pieces?, String.append_assoc,
    String.toList_append, hfront, Option.bind_some, List.map_cons, pieces, hcut, Option.bind_none]
  rfl

/-! ### Blocks -/

theorem ne_of_take {a b : String} (count : Nat) (h : a.toList.take count ≠ b.toList.take count) :
    a ≠ b :=
  fun heq => h (heq ▸ rfl)

theorem bodyOf?_enum (e : Enum) :
    bodyOf? ("pub enum " ++ Ident.escape e.name) (code e) =
      some (e.variants.map fun v =>
        .line (variantIdent v ++ " = " ++ v.number.toInt.repr ++ ",")) := by
  have hattribute (text : String) (h : text.toList.head? = some '#') :
      Code.line text ≠ .line ("pub enum " ++ Ident.escape e.name ++ " \x7b") := by
    rintro ⟨⟩
    simp at h
  simp only [code, spaced, declaration, List.cons_append]
  rw [bodyOf?_cons (hattribute _ rfl), bodyOf?_cons (hattribute _ rfl), bodyOf?_block]

theorem line_notMem_declaration (e : Enum) (name : String) {text : String}
    (h : text.toList.head? = some 'i') : .line text ∉ declaration e name := by
  simp only [declaration, block, enclosed, List.mem_cons, List.not_mem_nil, Code.line.injEq,
    reduceCtorEq, or_false, false_or]
  rintro (rfl | rfl | rfl | rfl) <;> simp at h

theorem bodyOf?_impl (e : Enum) :
    bodyOf? ("impl " ++ Ident.escape e.name) (code e) =
      some (spaced [constants e (Ident.escape e.name), toName e, ofName e, ofNumber e]) := by
  have hhead : ("impl " ++ Ident.escape e.name ++ " \x7b").toList.head? = some 'i' := by simp
  simp only [code, spaced]
  rw [bodyOf?_append (line_notMem_declaration e _ hhead), bodyOf?_cons (by simp),
    List.append_assoc, bodyOf?_block]

theorem bodyOf?_conversion (e : Enum) :
    bodyOf? ("impl ::core::convert::From<" ++ Ident.escape e.name ++ "> for i32") (code e) =
      some (block ("fn from(value: " ++ Ident.escape e.name ++ ") -> i32")
        [.line "value as i32"]) := by
  generalize hname : Ident.escape e.name = name
  have hhead : ("impl ::core::convert::From<" ++ name ++ "> for i32" ++ " \x7b").toList.head? =
    some 'i' := by simp
  have himpl : "impl ::core::convert::From<" ++ name ++ "> for i32" ++ " \x7b" ≠
      "impl " ++ name ++ " \x7b" := by
    intro heq
    have hlength := congrArg String.length heq
    simp only [String.length_append, show "impl ::core::convert::From<".length = 27 from rfl,
      show "impl ".length = 5 from rfl] at hlength
    omega
  have hdefault : "impl ::core::convert::From<" ++ name ++ "> for i32" ++ " \x7b" ≠
      "impl ::core::default::Default for " ++ name ++ " \x7b" :=
    ne_of_take 14 (by simp)
  have hclose : "impl ::core::convert::From<" ++ name ++ "> for i32" ++ " \x7b" ≠ "\x7d" :=
    ne_of_take 1 (by simp)
  have hfront (body : List Code) : .line ("impl ::core::convert::From<" ++ name ++ "> for i32" ++
      " \x7b") ∉ block ("impl " ++ name) body ++ defaultImpl e name := by
    unfold defaultImpl
    cases e.default? <;> simp [block, enclosed, himpl, hdefault, hclose]
  simp only [code, spaced, hname]
  rw [bodyOf?_append (line_notMem_declaration e _ hhead), bodyOf?_cons (by simp),
    bodyOf?_append (hfront _), bodyOf?_cons (by simp), toNumberImpl, bodyOf?_block]

theorem line_notMem_constants (e : Enum) (name : String) {text : String}
    (h : text.toList.take 5 = "pub f".toList) : .line text ∉ constants e name := by
  intro hmem
  rcases List.mem_cons.mp hmem with heq | hmem
  · cases heq
    simp at h
  · obtain ⟨v, -, hmem⟩ := List.mem_flatMap.mp hmem
    simp only [List.mem_cons, List.not_mem_nil, Code.line.injEq, or_false] at hmem
    rcases hmem with rfl | rfl <;> simp at h

theorem constant?_eq_none {text : String} (h : text.toList.take 5 ≠ "pub c".toList)
    (name : String) : constant? name (.line text) = none := by
  rw [constant?, text?, Option.bind_some, parts?, pieces?_eq_none 5 (by decide) h]

/-- The constants of a type are those of its aliases. -/
theorem filterMap_constant? {name : String} (h : '&' ∉ name.toList) (e : Enum) :
    (spaced [constants e name, toName e, ofName e, ofNumber e]).filterMap (constant? name) =
      e.aliases.map fun v => (variantIdent v, aliasTarget e v) := by
  have hfullName := constant?_fullName h (Escape.quoted e.fullName.dotted)
  have hattribute : constant? name (.line "#[allow(non_upper_case_globals)]") = none :=
    constant?_eq_none (by simp) name
  have hfunctions : (toName e ++ .gap :: (ofName e ++ .gap :: ofNumber e)).filterMap
      (constant? name) = [] := by
    refine List.filterMap_eq_nil_iff.mpr fun code hcode => ?_
    cases code with
    | gap => rfl
    | indented body => rfl
    | line text =>
      refine constant?_eq_none ?_ name
      simp only [toName, ofName, ofNumber, block, enclosed, List.mem_append, List.mem_cons,
        List.not_mem_nil, Code.line.injEq, reduceCtorEq, or_false, false_or] at hcode
      rcases hcode with (rfl | rfl | rfl) | (rfl | rfl | rfl) | rfl | rfl | rfl <;>
        simp [optionType]
  have haliases : (e.aliases.flatMap fun v =>
      [.line "#[allow(non_upper_case_globals)]",
       .line ("pub const " ++ variantIdent v ++ ": " ++ name ++ " = " ++ name ++ "::" ++
        aliasTarget e v ++ ";")]).filterMap (constant? name) =
      e.aliases.map fun v => (variantIdent v, aliasTarget e v) := by
    simp only [List.filterMap_flatMap, List.filterMap_cons, hattribute, constant?_line,
      List.filterMap_nil]
    exact List.map_eq_flatMap.symm
  simp only [spaced]
  rw [List.filterMap_append, constants, List.filterMap_cons_none hfullName, haliases,
    List.filterMap_cons_none rfl, hfunctions, List.append_nil]

theorem bodyOf?_toName (e : Enum) (name : String) :
    bodyOf? "pub fn as_str_name(&self) -> &'static str"
        (spaced [constants e name, toName e, ofName e, ofNumber e]) =
      some (block "match self" (e.variants.map fun v =>
        .line ("Self::" ++ variantIdent v ++ " => " ++ Escape.quoted v.name ++ ","))) := by
  simp only [spaced]
  rw [bodyOf?_append (line_notMem_constants e name rfl), bodyOf?_cons (by simp), toName,
    List.cons_append, bodyOf?_cons (by simp), bodyOf?_block]

theorem bodyOf?_ofName (e : Enum) (name : String) :
    bodyOf? ("pub fn from_str_name(value: &str) -> " ++ optionType ++ "<Self>")
        (spaced [constants e name, toName e, ofName e, ofNumber e]) =
      some (lookup (e.variants ++ e.aliases) fun v => Escape.quoted v.name) := by
  have hskip : .line ("pub fn from_str_name(value: &str) -> " ++ optionType ++ "<Self>" ++
      " \x7b") ∉ toName e := by
    simp [toName, block, enclosed, optionType]
  simp only [spaced]
  rw [bodyOf?_append (line_notMem_constants e name rfl), bodyOf?_cons (by simp),
    bodyOf?_append hskip, bodyOf?_cons (by simp), ofName,
    List.cons_append, bodyOf?_cons (by simp [optionType]), bodyOf?_block]

theorem bodyOf?_ofNumber (e : Enum) (name : String) :
    bodyOf? ("pub fn from_i32(value: i32) -> " ++ optionType ++ "<Self>")
        (spaced [constants e name, toName e, ofName e, ofNumber e]) =
      some (lookup e.variants fun v => v.number.toInt.repr) := by
  have hskip : .line ("pub fn from_i32(value: i32) -> " ++ optionType ++ "<Self>" ++ " \x7b") ∉
      toName e := by
    simp [toName, block, enclosed, optionType]
  have hskip' : .line ("pub fn from_i32(value: i32) -> " ++ optionType ++ "<Self>" ++ " \x7b") ∉
      ofName e := by
    simp [ofName, block, enclosed, optionType]
  simp only [spaced]
  rw [bodyOf?_append (line_notMem_constants e name rfl), bodyOf?_cons (by simp),
    bodyOf?_append hskip, bodyOf?_cons (by simp), bodyOf?_append hskip', bodyOf?_cons (by simp),
    ofNumber, bodyOf?_cons (by simp [optionType]), bodyOf?_block_alone]

/-! ### The type as a whole -/

theorem arms?_lookup {κ : Type} {key? : String → Option κ} {self : String → Option String}
    {values : List EnumValue} {text target : EnumValue → String} {key : EnumValue → κ}
    (hkey : ∀ v ∈ values, key? (text v) = some (key v))
    (htext : ∀ v ∈ values, ' ' ∉ (text v).toList)
    (hself : ∀ v ∈ values, self (variantIdent v) = some (target v)) :
    (bodyOf? "match value" (lookup values text)).bind (arms? self key?) =
      some (values.map fun v => (key v, target v)) := by
  rw [lookup, bodyOf?_block_alone, Option.bind_some, arms?, List.getLast?_concat,
    List.dropLast_concat, Option.bind_some, text?, if_pos rfl]
  exact mapM_lines fun v hv => arm?_line (hkey v hv) (htext v hv) (hself v hv)

theorem aliasTarget_eq {e : Enum} {v w : EnumValue} (h : e.ofNumber? v.number = some w) :
    aliasTarget e v = variantIdent w := by
  rw [aliasTarget, h]

theorem conversion?_code (e : Enum) :
    conversion? (Ident.escape e.name) (code e) = some ["value as i32"] := by
  rw [conversion?, bodyOf?_conversion, Option.bind_some, bodyOf?_block_alone]
  rfl

section
variable {e : Enum} {self : String → Option String}

theorem keys?_ofName (hvalues : ∀ v ∈ e.values, IsPlain v.name)
    (hself : ∀ v ∈ e.values, self (variantIdent v) = some (aliasTarget e v)) (name : String) :
    keys? self literal? ("pub fn from_str_name(value: &str) -> " ++ optionType ++ "<Self>")
        (spaced [constants e name, toName e, ofName e, ofNumber e]) =
      some (tables e).byName := by
  have hmem : ∀ v ∈ e.variants ++ e.aliases, v ∈ e.values := fun v =>
    e.variants_append_aliases.mem_iff.mp
  rw [keys?, bodyOf?_ofName, Option.bind_some]
  have hnames : ∀ v ∈ e.variants ++ e.aliases, IsMadeOf ['.'] v.name := fun v hv =>
    .of_plain (hvalues v (hmem v hv))
  exact arms?_lookup (fun v hv => literal?_quoted (hnames v hv))
    (fun v hv => (quoted_madeOf (hnames v hv)).notMem rfl (by decide))
    fun v hv => hself v (hmem v hv)

theorem keys?_ofNumber
    (hself : ∀ v ∈ e.values, self (variantIdent v) = some (aliasTarget e v)) (name : String) :
    keys? self int? ("pub fn from_i32(value: i32) -> " ++ optionType ++ "<Self>")
        (spaced [constants e name, toName e, ofName e, ofNumber e]) =
      some (tables e).byNumber := by
  rw [keys?, bodyOf?_ofNumber, Option.bind_some]
  exact arms?_lookup (fun v _ => int?_repr _) (fun v _ => notMem_repr rfl (by decide) _)
    fun v hv => hself v (Enum.mem_values_of_mem_variants hv)

end

section
variable {e : Enum} {v : EnumValue} (hidents : (e.values.map variantIdent).Nodup)
include hidents

theorem aliasTarget_variant (hv : v ∈ e.variants) : aliasTarget e v = variantIdent v :=
  aliasTarget_eq (Enum.ofNumber?_number (.of_map _ hidents) hv)

theorem names?_toName (hvalues : ∀ v ∈ e.values, IsPlain v.name) {self : String → Option String}
    (hself : ∀ v ∈ e.values, self (variantIdent v) = some (aliasTarget e v)) (name : String) :
    names? self "pub fn as_str_name(&self) -> &'static str"
        (spaced [constants e name, toName e, ofName e, ofNumber e]) =
      some (tables e).names := by
  rw [names?, bodyOf?_toName, Option.bind_some, bodyOf?_block_alone, Option.bind_some]
  refine mapM_lines fun v hv => ?_
  have hvalue := Enum.mem_values_of_mem_variants hv
  refine nameArm?_line (hvalues v hvalue) ?_
  rw [hself v hvalue, aliasTarget_variant hidents hv]

/-- The identifier of a value leads to the variant with its number. -/
theorem resolve_variantIdent (hv : v ∈ e.values) :
    resolve (e.variants.map variantIdent)
        (e.aliases.map fun v => (variantIdent v, aliasTarget e v)) (variantIdent v) =
      some (aliasTarget e v) := by
  have hperm := e.variants_append_aliases
  have hall : ((e.variants ++ e.aliases).map variantIdent).Nodup :=
    (hperm.map _).nodup_iff.mpr hidents
  rw [List.map_append, List.nodup_append] at hall
  obtain ⟨-, haliases, hapart⟩ := hall
  rcases List.mem_append.mp (hperm.mem_iff.mpr hv) with hvariant | halias
  · rw [resolve, if_pos (List.mem_map_of_mem hvariant), aliasTarget_variant hidents hvariant]
  · have hnot : variantIdent v ∉ e.variants.map variantIdent := fun hmem =>
      hapart _ hmem _ (List.mem_map_of_mem halias) rfl
    have hfind := Linking.find?_of_nodup haliases halias
    obtain ⟨w, hw, hmem, -⟩ := Enum.exists_ofNumber? hv
    have htarget : ∃ w ∈ e.variants, variantIdent w = aliasTarget e v :=
      ⟨w, hmem, (aliasTarget_eq hw).symm⟩
    rw [resolve, if_neg hnot, List.find?_map]
    simpa [Function.comp_def, hfind] using htarget

/-- **The code of an enum is read as its tables.** -/
theorem read_code (hname : IsPlain e.name) (hvalues : ∀ v ∈ e.values, IsPlain v.name) :
    Tables.read (Ident.escape e.name) (code e) = some (tables e) := by
  have hlines : (e.variants.map fun v =>
      Code.line (variantIdent v ++ " = " ++ v.number.toInt.repr ++ ",")).mapM
        (·.text?.bind variant?) = some (tables e).variants :=
    mapM_lines fun v _ => variant?_line v
  have hconstants : (spaced [constants e (Ident.escape e.name), toName e, ofName e,
      ofNumber e]).filterMap (constant? (Ident.escape e.name)) = (tables e).constants :=
    filterMap_constant? (Ident.notMem_escape hname rfl (by decide)) e
  have hself : ∀ v ∈ e.values,
      resolve ((tables e).variants.map (·.1)) (tables e).constants (variantIdent v) =
        some (aliasTarget e v) := by
    intro v hv
    have hidentsOf : (tables e).variants.map (·.1) = e.variants.map variantIdent := by
      simp [tables, Function.comp_def]
    rw [hidentsOf]
    exact resolve_variantIdent hidents hv
  rw [Tables.read]
  simp only [bodyOf?_enum, bodyOf?_impl, Option.bind_eq_bind, Option.bind_some, hlines, hconstants,
    names?_toName hidents hvalues hself, keys?_ofName hvalues hself, keys?_ofNumber hself,
    conversion?_code]
  rfl

end

end EnumType

end Protobuf

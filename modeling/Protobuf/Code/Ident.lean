import Protobuf.Text.Split
import Protobuf.Text.Uppercase

/-! Identifiers of generated Rust code.

Fields and modules are written in snake case and enum variants in Pascal case. A name that the
language keeps for itself becomes a raw identifier or, where that is not allowed, gets an underscore
at its end. -/
namespace Protobuf.Ident

/-! ### Pascal case -/

/-- The runs of letters and digits between other characters. -/
def words (name : List Char) : List (List Char) :=
  Split.pieces (!·.isAlphanum) name

/-- A word with a capital in front. A word without small letters gets small ones after it. -/
def pascalWord : List Char → List Char
  | [] => []
  | first :: rest =>
    first.toUpper ::
      if (first :: rest).any Char.isLower then rest else rest.map Char.toLower

def pascal (name : String) : String :=
  String.ofList ((words name.toList).flatMap pascalWord)

/-! ### Snake case -/

/-- Whether a word starts at a capital between these two characters. A run of capitals is one word,
up to a last one that begins a word of its own. -/
def startsWord (before after : Option Char) : Bool :=
  match before with
  | none => false
  | some b =>
    b.isLower || b.isDigit ||
      (b.isUpper && match after with
        | some a => a.isLower
        | none => false)

def snakeFrom (before : Option Char) : List Char → List Char
  | [] => []
  | c :: rest =>
    let next := snakeFrom (some c) rest
    if c.isUpper then
      if startsWord before rest.head? then '_' :: c.toLower :: next else c.toLower :: next
    else if c.isAlphanum then c :: next
    else '_' :: next

def snake (name : String) : String :=
  String.ofList (snakeFrom none name.toList)

/-! ### Words of the language -/

/-- The name with its first character in upper case. -/
def capitalize (name : String) : String :=
  match name.toList with
  | [] => ""
  | first :: rest => String.ofList (Uppercase.ofChar first ++ rest)

/-- Keywords that can be written as raw identifiers. -/
def keywords : List String :=
  ["abstract", "as", "async", "await", "become", "box", "break", "const", "continue", "do", "dyn",
   "else", "enum", "extern", "false", "final", "fn", "for", "if", "impl", "in", "let", "loop",
   "macro", "match", "mod", "move", "mut", "override", "priv", "pub", "ref", "return", "static",
   "struct", "trait", "true", "try", "type", "typeof", "unsafe", "unsized", "use", "virtual",
   "where", "while", "yield"]

/-- Names that cannot be identifiers, not even raw ones. -/
def pathKeywords : List String :=
  ["self", "super", "crate", "Self", "_"]

/-- Makes a name usable as an identifier. -/
def escape (name : String) : String :=
  if name ∈ pathKeywords then name ++ "_"
  else if name ∈ keywords then "r#" ++ name
  else name

/-- The identifier of a struct field and of its accessor. -/
def field (name : String) : String :=
  escape (snake name)

/-- The identifier of an enum variant. -/
def variant (name : String) : String :=
  escape (pascal name)

/-- The identifier of the module for a package or for what is nested in a message. -/
def moduleName (name : String) : String :=
  escape (snake name)

end Protobuf.Ident

/-! Program text as a tree of lines.

Lines are indented by their depth. A gap asks for an empty line; it is dropped at the start of the
text, after another empty line and after a line that opens a block. -/
namespace Protobuf

inductive Code where
  | line (text : String)
  | gap
  | indented (body : List Code)
  deriving Inhabited

namespace Code

/-- A head, a body further in, and a line that closes it. -/
def enclosed (head : String) (body : List Code) (close : String) : List Code :=
  [.line head, .indented body, .line close]

/-- A head and a body in braces. -/
def block (head : String) (body : List Code) : List Code :=
  enclosed (head ++ " \x7b") body "\x7d"

/-- Parts with gaps between them. -/
def spaced : List (List Code) → List Code
  | [] => []
  | [part] => part
  | part :: rest => part ++ .gap :: spaced rest

/-! ### Rendering -/

/-- The indentation of one level. -/
def indent : String := "    "

mutual

/-- The lines of a tree at some depth; a gap is `none`. -/
def lines (depth : Nat) : Code → List (Option String)
  | line text => [some (String.join (List.replicate depth indent) ++ text)]
  | gap => [none]
  | indented body => linesOf (depth + 1) body

def linesOf (depth : Nat) : List Code → List (Option String)
  | [] => []
  | code :: rest => lines depth code ++ linesOf depth rest

end

/-- Whether a gap after this line becomes an empty line. -/
def allowsGap (last : Option String) : Bool :=
  match last with
  | none => false
  | some text => text != "" && text.toList.getLast? != some '\x7b'

/-- Turns gaps into empty lines, or drops them. -/
def settle (last : Option String) : List (Option String) → List String
  | [] => []
  | some text :: rest => text :: settle (some text) rest
  | none :: rest => if allowsGap last then "" :: settle (some "") rest else settle last rest

/-- The text of a list of trees. Every line ends with a line feed. -/
def render (code : List Code) : String :=
  String.join ((settle none (linesOf 0 code)).map (· ++ "\n"))

end Code

end Protobuf

import Protobuf.Text.Split

/-! Paths of files, as text with slashes.

Paths are compared by their components, so that doubled slashes do not count. A dot is a component
only at the front of a relative path. -/
namespace Protobuf.Path

inductive Component where
  | root
  | current
  | parent
  | normal (name : String)
  deriving DecidableEq, Repr, Inhabited

/-- The texts between slashes. -/
def segments (path : String) : List String :=
  (Split.pieces (· == '/') path.toList).map String.ofList

def isAbsolute (path : String) : Bool :=
  path.toList.head? == some '/'

/-- The components of segments behind the first one. -/
def innerComponents (segments : List String) : List Component :=
  segments.filterMap fun s =>
    if s = "" ∨ s = "." then none
    else if s = ".." then some .parent
    else some (.normal s)

def components (path : String) : List Component :=
  if isAbsolute path then .root :: innerComponents (segments path)
  else if (segments path).head? = some "." then .current :: innerComponents (segments path)
  else innerComponents (segments path)

/-- Whether two paths have the same components. -/
def same (a b : String) : Bool :=
  components a == components b

/-- What is left of the components of a path after those of `front`, if it begins with them. Dots
are passed over wherever they stand, on either side. -/
def after? : (path front : List Component) → Option (List Component)
  | [], front => if front.all (· == .current) then some [] else none
  | .current :: path, front => after? path front
  | step :: path, front =>
    match front.dropWhile (· == .current) with
    | [] => some (step :: path)
    | first :: front => if step = first then after? path front else none

/-- Whether two paths are equal up to dots. -/
def equivalent (a b : String) : Bool :=
  after? (components a) (components b) == some []

/-- What is left of a path inside a directory. -/
def inside? (directory path : String) : Option (List Component) :=
  after? (components path) (components directory)

/-- The text of a component that is a name. -/
def Component.name? : Component → Option String
  | normal name => some name
  | _ => none

/-- The name that components spell, unless they leave the place they start from. -/
def nameOf? (list : List Component) : Option String :=
  let names := (list.filter (· != .current)).map Component.name?
  if names.all Option.isSome then some ("/".intercalate names.reduceOption) else none

/-- Appends a path; an absolute one replaces what is in front of it. -/
def join (base path : String) : String :=
  if isAbsolute path || base.isEmpty then path
  else if base.toList.getLast? = some '/' then base ++ path
  else base ++ "/" ++ path

/-- Segments without those at the end that stay on the spot. -/
def trimmed (segments : List String) : List String :=
  (segments.reverse.dropWhile fun s => s = "" ∨ s = ".").reverse

/-- The path without its last component, in the words of the path itself: nothing in front of that
component changes but the slashes and dots right before it. -/
def around? (path : String) : Option String :=
  let list := segments path
  let dotted := list.head? == some "."
  let front := if isAbsolute path || dotted then list.take 1 else []
  match trimmed (list.drop front.length) with
  | [] => if dotted then some "" else none
  | body =>
    let left := front ++ trimmed body.dropLast
    some (if left = [""] then "/" else "/".intercalate left)

/-- The last name of a path. -/
def fileName? (path : String) : Option String :=
  match (components path).getLast? with
  | some (.normal name) => some name
  | _ => none

/-- A name without its extension. A dot at the front does not begin one. -/
def stem (name : String) : String :=
  match Split.pieces (· == '.') name.toList with
  | [] => name
  | [_] => name
  | [[], _] => name
  | pieces => String.ofList (['.'].intercalate pieces.dropLast)

/-- The last name of a path without its extension, or the whole path if it has none. -/
def fileStem (path : String) : String :=
  match fileName? path with
  | some name => stem name
  | none => path

end Protobuf.Path

import Mathlib.Data.List.Basic
import Protobuf.Code.SourceText

/-! Reading generated code back.

Code is a tree of lines. What stands in a line is found by cutting it at marks, and a block by its
head. For the text of a tree only the lines at the left margin are looked at: among them are those
that begin the declaration of a type, and they are the same in the text as in the tree
(`exists_lines_render`), since every line further in begins with a blank. So the text for some
definitions declares their types and no others (`types_code`). -/
namespace Protobuf

/-! ### Lines and blocks -/

namespace Code

/-- The text up to the first character of a mark, and the text after the mark if it follows. -/
def cut (mark text : List Char) : Option (List Char × List Char) :=
  (mark.isPrefixOf? (text.dropWhile (some · != mark.head?))).map fun rest =>
    (text.takeWhile (some · != mark.head?), rest)

/-- The texts in front of marks that follow each other up to the end. -/
def pieces : List (List Char) → List Char → Option (List (List Char))
  | [], text => if text = [] then some [] else none
  | mark :: marks, text =>
    (cut mark text).bind fun first => (pieces marks first.2).map (first.1 :: ·)

/-- The pieces of a line that begins with `front`. -/
def pieces? (front : String) (marks : List String) (text : String) : Option (List String) :=
  (front.toList.isPrefixOf? text.toList).bind fun rest =>
    (pieces (marks.map String.toList) rest).map (·.map String.ofList)

/-- The text of a line between `front` and `close`. -/
def piece? (front close text : String) : Option String :=
  match pieces? front [close] text with
  | some [a] => some a
  | _ => none

/-- The two parts of a line that begins with `front`, has `mark` between the parts and ends with
`close`. -/
def parts? (front mark close text : String) : Option (String × String) :=
  match pieces? front [mark, close] text with
  | some [a, b] => some (a, b)
  | _ => none

/-- What stands further in below this line. -/
def below? (line : String) : List Code → Option (List Code)
  | .line text :: .indented body :: rest => if text = line then some body else below? line rest
  | _ :: rest => below? line rest
  | [] => none

/-- The body of the block with this head. -/
def bodyOf? (head : String) : List Code → Option (List Code) :=
  below? (head ++ " \x7b")

/-- The text of a line. -/
def text? : Code → Option String
  | .line text => some text
  | _ => none

/-- The number that decimal digits stand for. -/
def nat? (text : String) : Option Nat :=
  if text.toList ≠ [] ∧ text.toList.all Char.isDigit then
    some (Nat.ofDigitChars 10 text.toList 0)
  else none

/-- The number that decimal digits, with a sign if it is negative, stand for. -/
def int? (text : String) : Option Int :=
  match text.toList with
  | '-' :: digits => (nat? (String.ofList digits)).map Int.negOfNat
  | _ => (nat? text).map Int.ofNat

theorem nat?_repr (n : Nat) : nat? n.repr = some n := by
  have hdigits : (Nat.toDigits 10 n).all Char.isDigit = true :=
    List.all_eq_true.mpr fun _ => Nat.isDigit_of_mem_toDigits (by decide) (by decide)
  rw [nat?, Nat.repr_eq_ofList_toDigits, String.toList_ofList,
    if_pos ⟨Nat.toDigits_ne_nil, hdigits⟩, Nat.ofDigitChars_ten_toDigits]

theorem int?_repr (n : Int) : int? n.repr = some n := by
  cases n with
  | negSucc n =>
    have hrepr : (Int.negSucc n).repr.toList = '-' :: (n + 1).repr.toList := by
      simp [Int.repr]
    rw [int?, hrepr]
    show (nat? (String.ofList (n + 1).repr.toList)).map Int.negOfNat = _
    rw [String.ofList_toList, nat?_repr]
    rfl
  | ofNat n =>
    have hrepr : (Int.ofNat n).repr = n.repr := rfl
    have hhead : ∀ digits, n.repr.toList ≠ '-' :: digits := by
      intro digits h
      have hdigit : Char.isDigit '-' = true :=
        Nat.isDigit_of_mem_toDigits (b := 10) (n := n) (by decide) (by decide) (by
          rw [← String.toList_ofList (l := Nat.toDigits 10 n), ← Nat.repr_eq_ofList_toDigits, h]
          exact List.mem_cons_self)
      cases hdigit
    rw [int?, hrepr]
    split
    · exact absurd ‹_› (hhead _)
    · rw [nat?_repr, Option.map_some]

@[simp] theorem text?_line (text : String) : (line text).text? = some text := rfl

@[simp] theorem text?_indented (body : List Code) : (indented body).text? = none := rfl

/-- A text is cut where the first character of the mark stands first. -/
theorem cut_eq {front mark rest : List Char} {c : Char} (hmark : mark.head? = some c)
    (h : c ∉ front) (hrest : rest.head? = some c) :
    cut mark (front ++ rest) = (mark.isPrefixOf? rest).map (Prod.mk front) := by
  have hfront : ∀ d ∈ front, (some d != mark.head?) = true := by
    intro d hd
    rw [hmark]
    simpa using fun heq : d = c => h (heq ▸ hd)
  rw [cut, List.takeWhile_append_of_pos hfront, List.dropWhile_append_of_pos hfront, hmark]
  cases rest with
  | nil => cases hrest
  | cons d rest =>
    obtain rfl : d = c := Option.some.inj hrest
    simp

theorem cut_append {front mark : List Char} {c : Char} (hmark : mark.head? = some c)
    (h : c ∉ front) (rest : List Char) :
    cut mark (front ++ (mark ++ rest)) = some (front, rest) := by
  have hrest : (mark ++ rest).head? = some c := by rw [List.head?_append, hmark, Option.some_or]
  have hmark' : mark.isPrefixOf? (mark ++ rest) = some rest :=
    List.isPrefixOf?_eq_some_iff_append_eq.mpr rfl
  rw [cut_eq hmark h hrest, hmark', Option.map_some]

/-- A piece ends at the mark behind it. -/
def Stops (piece mark : String) : Prop :=
  ∃ c, mark.toList.head? = some c ∧ c ∉ piece.toList

/-- The pieces of a line can be told apart if none has the character that ends it. -/
theorem pieces?_eq (front : String) {l : List (String × String)} (h : ∀ p ∈ l, Stops p.1 p.2) :
    pieces? front (l.map (·.2)) (front ++ String.join (l.map fun p => p.1 ++ p.2)) =
      some (l.map (·.1)) := by
  have hpieces : pieces ((l.map (·.2)).map String.toList)
      (String.join (l.map fun p => p.1 ++ p.2)).toList = some (l.map (·.1.toList)) := by
    induction l with
    | nil => rfl
    | cons p l ih =>
      obtain ⟨⟨c, hc, hnot⟩, hl⟩ := List.forall_mem_cons.mp h
      rw [List.map_cons, List.map_cons, List.map_cons, String.join_cons, String.toList_append,
        String.toList_append, List.append_assoc, pieces, cut_append hc hnot, Option.bind_some,
        ih hl, Option.map_some, List.map_cons]
  have hfront (text : List Char) : front.toList.isPrefixOf? (front.toList ++ text) = some text :=
    List.isPrefixOf?_eq_some_iff_append_eq.mpr rfl
  rw [pieces?, String.toList_append, hfront, Option.bind_some, hpieces, Option.map_some,
    List.map_map]
  simp only [Function.comp_def, String.ofList_toList]

theorem piece?_eq (front : String) {close a : String} (h : Stops a close) :
    piece? front close (front ++ (a ++ close)) = some a := by
  have hpieces := pieces?_eq front (l := [(a, close)]) (by simpa using h)
  simp only [List.map_cons, List.map_nil, String.join_cons, String.join_nil,
    String.append_empty] at hpieces
  rw [piece?, hpieces]

/-- Between the same marks, a line that ends otherwise has nothing. -/
theorem piece?_eq_none (front : String) {close other a : String} {c : Char}
    (hclose : close.toList.head? = some c) (hother : other.toList.head? = some c)
    (ha : c ∉ a.toList) (hne : close ≠ other) :
    piece? front close (front ++ (a ++ other)) = none := by
  have hfront (text : List Char) : front.toList.isPrefixOf? (front.toList ++ text) = some text :=
    List.isPrefixOf?_eq_some_iff_append_eq.mpr rfl
  have hpieces : pieces [close.toList] (a.toList ++ other.toList) = none := by
    rw [pieces, cut_eq hclose ha hother]
    cases hrest : close.toList.isPrefixOf? other.toList with
    | none => rfl
    | some rest =>
      have hne' : rest ≠ [] := by
        rintro rfl
        have heq := List.append_eq_of_isPrefixOf?_eq_some hrest
        rw [List.append_nil] at heq
        exact hne (String.toList_inj.mp heq)
      rw [Option.map_some, Option.bind_some, pieces, if_neg hne', Option.map_none]
  rw [piece?, pieces?, String.toList_append, String.toList_append, hfront, Option.bind_some,
    List.map_cons, List.map_nil, hpieces]
  rfl

theorem parts?_eq (front : String) {mark close a b : String} (ha : Stops a mark)
    (hb : Stops b close) :
    parts? front mark close (front ++ (a ++ (mark ++ (b ++ close)))) = some (a, b) := by
  have hpieces := pieces?_eq front (l := [(a, mark), (b, close)]) (by simp [ha, hb])
  simp only [List.map_cons, List.map_nil, String.join_cons, String.join_nil, String.append_empty,
    String.append_assoc] at hpieces
  rw [parts?, hpieces]

/-- A line that differs from `front` somewhere at its start does not begin with it. -/
theorem isPrefixOf?_eq_none {front text : String} (count : Nat) (hcount : count ≤ front.length)
    (h : text.toList.take count ≠ front.toList.take count) :
    front.toList.isPrefixOf? text.toList = none := by
  refine Option.eq_none_iff_forall_ne_some.mpr fun rest hrest => h ?_
  rw [← List.append_eq_of_isPrefixOf?_eq_some hrest, List.take_append_of_le_length hcount]

theorem pieces?_eq_none {front text : String} (count : Nat) (hcount : count ≤ front.length)
    (h : text.toList.take count ≠ front.toList.take count) (marks : List String) :
    pieces? front marks text = none := by
  rw [pieces?, isPrefixOf?_eq_none count hcount h, Option.bind_none]

theorem piece?_of_front {front text : String} (count : Nat) (hcount : count ≤ front.length)
    (h : text.toList.take count ≠ front.toList.take count) (close : String) :
    piece? front close text = none := by
  rw [piece?, pieces?_eq_none count hcount h]

theorem below?_cons {line : String} {code : Code} (h : code ≠ .line line) (rest : List Code) :
    below? line (code :: rest) = below? line rest := by
  cases code with
  | gap => rfl
  | indented body => rfl
  | line text =>
    have htext : text ≠ line := fun heq => h (congrArg Code.line heq)
    cases rest with
    | nil => rfl
    | cons next rest =>
      cases next with
      | gap => rfl
      | line other => rfl
      | indented body =>
        rw [below?, if_neg htext]
        rfl

/-- Lines other than the one that is looked for are passed over. -/
theorem below?_append {line : String} {front : List Code} (h : .line line ∉ front)
    (rest : List Code) : below? line (front ++ rest) = below? line rest := by
  induction front with
  | nil => rfl
  | cons code front ih =>
    obtain ⟨hcode, hfront⟩ := not_or.mp (mt List.mem_cons.mpr h)
    rw [List.cons_append, below?_cons (Ne.symm hcode), ih hfront]

theorem below?_line (line : String) (body rest : List Code) :
    below? line (.line line :: .indented body :: rest) = some body := by
  rw [below?, if_pos rfl]

theorem bodyOf?_cons {head : String} {code : Code} (h : code ≠ .line (head ++ " \x7b"))
    (rest : List Code) : bodyOf? head (code :: rest) = bodyOf? head rest :=
  below?_cons h rest

theorem bodyOf?_append {head : String} {front : List Code}
    (h : .line (head ++ " \x7b") ∉ front) (rest : List Code) :
    bodyOf? head (front ++ rest) = bodyOf? head rest :=
  below?_append h rest

/-- A part with a gap behind it is passed over. -/
theorem bodyOf?_part {head : String} {front : List Code}
    (h : .line (head ++ " \x7b") ∉ front) (rest : List Code) :
    bodyOf? head (front ++ .gap :: rest) = bodyOf? head rest := by
  rw [bodyOf?_append h, bodyOf?_cons (by simp)]

theorem bodyOf?_block (head : String) (body rest : List Code) :
    bodyOf? head (block head body ++ rest) = some body :=
  below?_line _ body _

theorem bodyOf?_block_alone (head : String) (body : List Code) :
    bodyOf? head (block head body) = some body := by
  rw [← List.append_nil (block head body), bodyOf?_block]

theorem mapM_eq_some {α β : Type} {read : α → Option β} {value : α → β} {l : List α}
    (h : ∀ a ∈ l, read a = some (value a)) : l.mapM read = some (l.map value) := by
  induction l with
  | nil => rfl
  | cons a l ih =>
    obtain ⟨ha, hl⟩ := List.forall_mem_cons.mp h
    rw [List.mapM_cons, ih hl, ha]
    rfl

/-- Lines that are read one by one. -/
theorem mapM_lines {α β : Type} {read : String → Option β} {text : α → String} {value : α → β}
    {l : List α} (h : ∀ a ∈ l, read (text a) = some (value a)) :
    (l.map fun a => line (text a)).mapM (·.text?.bind read) = some (l.map value) := by
  rw [List.mapM_map]
  exact mapM_eq_some h

/-! ### Declared types -/

/-- The type that a line begins to declare. -/
inductive TypeHead where
  | struct (name : String)
  | enum (name : String)
  deriving DecidableEq

/-- The name between `front` and a brace. -/
def named? (front line : String) : Option String :=
  (front.toList.isPrefixOf? line.toList).bind fun rest =>
    (" \x7b".toList.isSuffixOf? rest).map String.ofList

/-- The type that a line begins to declare, if it stands at the left margin. -/
def typeHead? (line : String) : Option TypeHead :=
  ((named? "pub struct " line).map .struct).or ((named? "pub enum " line).map .enum)

/-- A line that begins otherwise has no name after `front`. -/
theorem named?_eq_none {front line : String} (count : Nat) (hcount : count ≤ front.length)
    (h : line.toList.take count ≠ front.toList.take count) : named? front line = none := by
  rw [named?, isPrefixOf?_eq_none count hcount h, Option.bind_none]

theorem typeHead?_eq_none {line : String} (hstruct : line.toList.take 5 ≠ "pub s".toList)
    (henum : line.toList.take 5 ≠ "pub e".toList) : typeHead? line = none := by
  rw [typeHead?, named?_eq_none 5 (by decide) hstruct, named?_eq_none 5 (by decide) henum]
  rfl

theorem typeHead?_indented (depth : Nat) (text : String) :
    typeHead? (String.join (List.replicate (depth + 1) indent) ++ text) = none := by
  have hhead : (String.join (List.replicate (depth + 1) indent) ++ text).toList.head? =
      some ' ' := by
    simp [List.replicate_succ, String.join_cons, indent]
  refine typeHead?_eq_none (fun h => ?_) fun h => ?_
  all_goals
    have htake := congrArg List.head? h
    rw [List.head?_take, hhead] at htake
    simp at htake

mutual

theorem bind_typeHead?_lines (depth : Nat) : (code : Code) →
    ∀ line ∈ lines (depth + 1) code, line.bind typeHead? = none
  | .line text => by
    intro line hline
    rw [List.mem_singleton.mp hline]
    exact typeHead?_indented depth text
  | .gap => by
    intro line hline
    rw [List.mem_singleton.mp hline]
    rfl
  | .indented body => bind_typeHead?_linesOf (depth + 1) body

/-- No line further in declares a type. -/
theorem bind_typeHead?_linesOf (depth : Nat) : (body : List Code) →
    ∀ line ∈ linesOf (depth + 1) body, line.bind typeHead? = none
  | [] => nofun
  | code :: rest => by
    intro line hline
    rcases List.mem_append.mp hline with hline | hline
    · exact bind_typeHead?_lines depth code line hline
    · exact bind_typeHead?_linesOf depth rest line hline

end

end Code

/-! ### Definitions -/

open Code

namespace MessageType

end MessageType

namespace Item

end Item

end Protobuf

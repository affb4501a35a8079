import Protobuf.Text.Span

/-! What is shown of a fault: a message, a hint, and the places in the text it is about.

A report holds all that is wrong with one file, in the order it is shown. -/
namespace Protobuf

/-- A place in the text and what to say about it. -/
structure Label where
  text : String
  span : Span
  deriving DecidableEq, Repr, Inhabited

structure Diagnostic where
  message : String
  help : Option String
  labels : List Label
  deriving DecidableEq, Repr, Inhabited

/-- What is wrong with one file. There is at least one thing, and it has a place in the text if
`position` is known. -/
structure Report (α : Type) where
  file : String
  first : α
  related : List α
  position : Option Position
  deriving Repr, Inhabited

namespace Report
variable {α : Type}

/-- A report on sorted faults, if there are any; `start` gives the place of a fault. -/
def ofSorted? (file text : String) (start : α → Option Nat) : List α → Option (Report α)
  | [] => none
  | first :: related => some ⟨file, first, related, (start first).map (Position.locate text)⟩

/-- No report is made only if there are no faults to sort. -/
theorem ofSorted?_mergeSort_eq_none_iff {file text : String} {start : α → Option Nat}
    {le : α → α → Bool} {faults : List α} :
    ofSorted? file text start (faults.mergeSort le) = none ↔ faults = [] := by
  rw [← List.length_eq_zero_iff, ← List.length_mergeSort faults, List.length_eq_zero_iff]
  cases faults.mergeSort le with
  | nil => exact ⟨fun _ => rfl, fun _ => rfl⟩
  | cons first related => exact ⟨nofun, nofun⟩

/-- The number of faults. -/
def count (r : Report α) : Nat :=
  r.related.length + 1

/-- The first fault on one line, with its file and place. -/
def summary (message : α → String) (r : Report α) : String :=
  match r.position with
  | some p => r.file ++ ":" ++ p.line.repr ++ ":" ++ p.column.repr ++ ": " ++ message r.first
  | none => r.file ++ ": " ++ message r.first

end Report

end Protobuf

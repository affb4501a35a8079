/-! Cutting text at separators. -/
namespace Protobuf.Split

/-- The pieces between the characters that satisfy `p`, empty ones included. -/
def pieces (p : Char → Bool) : List Char → List (List Char)
  | [] => [[]]
  | c :: rest =>
    if p c then [] :: pieces p rest
    else
      match pieces p rest with
      | first :: others => (c :: first) :: others
      | [] => [[c]]

/-- There is always a first piece. -/
theorem pieces_ne_nil (p : Char → Bool) (text : List Char) : pieces p text ≠ [] := by
  cases text with
  | nil => simp [pieces]
  | cons c rest =>
    simp only [pieces]
    split
    · simp
    · split <;> simp

end Protobuf.Split

import Protobuf.Source.Decl
import Protobuf.Source.Lexer

/-! Reading the words of a text with a cursor.

A parser looks at the next word, may record faults, and either gives a value or fails. A failure
keeps the cursor where it is, so that reading can go on from there.

Lexemes are taken only when a word is looked at that was not looked at before. Comments and lexemes
without a token are passed over then. The faults of each lexeme that is taken are recorded.

A word is passed over only after it was looked at. Loops are run by `Parser.loop`. A round that goes
on is meant to use up a word, so there are never more rounds than words, and the loop is bounded by
the number of lexemes. Where one of these rules is broken, that is a fault of its own kind. -/
namespace Protobuf

/-- A token that is no comment, and its place. -/
structure Word where
  token : Token
  span : Span
  deriving DecidableEq, Inhabited

/-- The word that a lexeme is, unless it is a comment or has no token. -/
def Lexeme.word? (l : Lexeme) : Option Word :=
  match l.token with
  | some token => if token.isComment then none else some ⟨token, l.span⟩
  | none => none

/-- Where reading is in a text. -/
structure Cursor where
  /-- The word that was looked at and not passed over yet. -/
  seen : Option Word
  /-- The lexemes that were not taken yet. -/
  lexemes : List Lexeme
  /-- The faults recorded so far. -/
  faults : List Fault
  deriving DecidableEq, Inhabited

namespace Cursor

def start (text : String) : Cursor :=
  ⟨none, Lexer.scan text, []⟩

/-- Takes lexemes up to the next word, and records their faults. -/
def take (faults : List Fault) : List Lexeme → Cursor
  | [] => ⟨none, [], faults⟩
  | l :: rest =>
    match l.word? with
    | some word => ⟨some word, rest, faults ++ l.faults⟩
    | none => take (faults ++ l.faults) rest

/-- Looks at the next word, unless that was done before. -/
def look (c : Cursor) : Cursor :=
  match c.seen with
  | some _ => c
  | none => take c.faults c.lexemes

/-- More than there are words left. -/
def limit (c : Cursor) : Nat :=
  c.lexemes.length + 2

end Cursor

def Parser (α : Type) := Cursor → Option α × Cursor

namespace Parser
variable {α β σ : Type}

instance : Monad Parser where
  pure a := fun c => (some a, c)
  bind p f := fun c =>
    match p c with
    | (some a, c') => f a c'
    | (none, c') => (none, c')

/-- Gives no value and stays where it is. -/
def fail : Parser α := fun c => (none, c)

/-- The next word, which stays unread. -/
def peek : Parser (Option Word) := fun c => (some c.look.seen, c.look)

def report (fault : Fault) : Parser Unit := fun c =>
  (some (), { c with faults := c.faults ++ [fault] })

/-- Fails where no text leads. -/
def impossible (reason : String) : Parser α := do
  report (.internal reason)
  fail

/-- Passes over the word that was looked at. -/
def advance (word : Word) : Parser Unit := fun c =>
  if c.seen = some word then (some (), { c with seen := none })
  else impossible "a word is passed over that was not looked at" c

/-- Fails, reporting the next word in place of what was expected. -/
def unexpected (expected : String) : Parser α := do
  match ← peek with
  | some word => report (.unexpectedToken expected word.token.text word.span)
  | none => report (.unexpectedEnd expected)
  fail

/-- Tries a parser; its failure becomes a value. -/
def recover (p : Parser α) : Parser (Option α) := fun c =>
  let (value, c') := p c
  (some value, c')

/-- Reads one given token. -/
def expect (token : Token) : Parser Span := do
  match ← peek with
  | some word =>
    if word.token = token then
      advance word
      return word.span
    else unexpected ("'" ++ token.text ++ "'")
  | none => unexpected ("'" ++ token.text ++ "'")

/-- Reads one given sign. -/
def sign (p : Punct) : Parser Span :=
  expect (.punct p)

/-- Reads one given word. -/
def keyword (name : String) : Parser Span :=
  expect (.ident name)

/-- Reads one given sign if it is next. -/
def accept (p : Punct) : Parser Bool := do
  match ← peek with
  | some ⟨.punct q, span⟩ =>
    if p = q then
      advance ⟨.punct q, span⟩
      return true
    else return false
  | _ => return false

/-- What a round of a loop leads to. -/
inductive Turn (σ β : Type) where
  | again (state : σ)
  | done (result : β)

/-- Runs at most so many rounds. -/
def loopFor (body : σ → Parser (Turn σ β)) : (rounds : Nat) → σ → Parser β
  | 0, _ => impossible "a loop goes on without using up words"
  | rounds + 1, s => do
    match ← body s with
    | .again s' => loopFor body rounds s'
    | .done result => return result

/-- Runs rounds until one is the last. Each other round uses up a word. -/
def loop (body : σ → Parser (Turn σ β)) (s : σ) : Parser β := fun c =>
  loopFor body c.limit s c

/-- A round of passing over words up to one that is among `stops`. -/
def skipRound (stops : List Token) (_ : Unit) : Parser (Turn Unit Unit) := do
  match ← peek with
  | none => return .done ()
  | some word =>
    if word.token ∈ stops then return .done ()
    else
      advance word
      return .again ()

/-- Passes over words up to one that is among `stops`. -/
def skipTo (stops : List Token) : Parser Unit :=
  loop (skipRound stops) ()

/-- A round of passing over a block, inside so many braces. -/
def blockRound (depth : Nat) : Parser (Turn Nat Unit) := do
  match ← peek with
  | some ⟨.punct .leftBrace, span⟩ =>
    advance ⟨.punct .leftBrace, span⟩
    return .again (depth + 1)
  | some ⟨.punct .rightBrace, span⟩ =>
    advance ⟨.punct .rightBrace, span⟩
    return if depth ≤ 1 then .done () else .again (depth - 1)
  | some word =>
    advance word
    return .again depth
  | none => unexpected "'\x7d'"

/-- Passes over words up to and including the brace that closes the next block. -/
def skipBlock : Parser Unit :=
  loop blockRound 0

end Parser

end Protobuf

import Protobuf.Source.Decl

/-! The numbers and names that the `reserved` statements of a message or enum rule out. -/
namespace Protobuf

/-- A reserved interval of numbers, ends included, and where it is declared. -/
structure ReservedInterval where
  first : Int
  last : Int
  span : Span
  deriving DecidableEq, Repr, Inhabited

structure ReservedSet where
  intervals : List ReservedInterval
  names : List Decl.Ident
  deriving DecidableEq, Repr, Inhabited

namespace ReservedSet

/-- The interval of a range, in a statement at `span`; `max` is the largest number. A range with an
end beyond 64 bits is passed over. -/
def interval? (max : Int) (span : Span) (r : Decl.ReservedRange) : Option ReservedInterval :=
  match r.first.toInt64? with
  | none => none
  | some first =>
    match r.stop with
    | .single => some ⟨first, first, r.first.span⟩
    | .upTo stop => stop.toInt64?.map fun last => ⟨first, last, r.first.span.join stop.span⟩
    | .max => some ⟨first, max, span⟩

def statementIntervals (max : Int) (statement : Decl.Reserved) : List ReservedInterval :=
  match statement.items with
  | .ranges list => list.filterMap (interval? max statement.span)
  | .names _ => []

def statementNames (statement : Decl.Reserved) : List Decl.Ident :=
  match statement.items with
  | .ranges _ => []
  | .names list => list

def ofStatements (max : Int) (statements : List Decl.Reserved) : ReservedSet :=
  ⟨statements.flatMap (statementIntervals max), statements.flatMap statementNames⟩

/-- Where a number is reserved. -/
def number? (r : ReservedSet) (n : Int) : Option Span :=
  (r.intervals.find? fun i => i.first ≤ n && n ≤ i.last).map (·.span)

/-- Where a name is reserved. -/
def name? (r : ReservedSet) (name : String) : Option Span :=
  (r.names.find? (·.value == name)).map (·.span)

end ReservedSet

end Protobuf

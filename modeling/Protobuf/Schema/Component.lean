/-! Strongly connected components of a directed graph.

One depth-first search finds them all. Nodes that are discovered go on a stack. A node's rank is its
place on the stack, counted from the bottom. `visit` returns the least rank on the stack that it
found an edge to. If that is the rank of the node itself, then the node and everything above it on
the stack is a component, and leaves the stack. -/
namespace Protobuf

/-- The targets of the edges of each node. -/
abbrev Graph := List (List Nat)

namespace Graph

def targets (g : Graph) (node : Nat) : List Nat :=
  g.getD node []

/-- The state of a search. -/
structure Search where
  /-- Discovered nodes whose component is not complete, the last one first. -/
  stack : List Nat
  /-- Complete components, the last one first. -/
  components : List (List Nat)
  /-- The nodes that were searched from, in order. -/
  visited : List Nat
  deriving DecidableEq, Repr, Inhabited

namespace Search

def start : Search := ⟨[], [], []⟩

/-- Whether the component of a node is complete. -/
def isComplete (s : Search) (node : Nat) : Bool :=
  s.components.any (·.contains node)

/-- The place of a node on the stack, counted from the bottom. -/
def rank (s : Search) (node : Nat) : Nat :=
  s.stack.length - 1 - s.stack.idxOf node

/-- Counts a search from a node. -/
def visit (s : Search) (node : Nat) : Search :=
  { s with visited := s.visited ++ [node] }

def push (s : Search) (node : Nat) : Search :=
  { s.visit node with stack := node :: s.stack }

/-- Takes a component off the stack: everything down to the given height. -/
def complete (s : Search) (height : Nat) : Search :=
  let size := s.stack.length - height
  { s with stack := s.stack.drop size, components := s.stack.take size :: s.components }

end Search

/-- Follows the edges to these nodes; `visit` searches from a node that is not yet discovered. The
result is the least rank that was found, or `low` if that is less. -/
def follow (visit : Nat → Search → Nat × Search) (low : Nat) (s : Search) :
    List Nat → Nat × Search
  | [] => (low, s)
  | node :: rest =>
    if s.isComplete node then follow visit low s rest
    else if node ∈ s.stack then follow visit (min low (s.rank node)) s rest
    else
      let (found, s') := visit node s
      follow visit (min low found) s' rest

/-- Searches from a node. Each call that searches on discovers a node, so the number of nodes bounds
how deep they nest. -/
def visit (g : Graph) : (depth : Nat) → Nat → Search → Nat × Search
  | 0, node, s => (s.stack.length, s.visit node)
  | depth + 1, node, s =>
    let height := s.stack.length
    let (low, s') := follow (visit g depth) height (s.push node) (g.targets node)
    if low = height then (low, s'.complete height) else (low, s')

/-- Searches from every node that is not yet discovered. -/
def search (g : Graph) : Search :=
  (follow (visit g g.length) 0 .start (List.range g.length)).2

def components (g : Graph) : List (List Nat) :=
  g.search.components

/-- The number of the component of each node. Components are numbered from 0, in the order in which
they are completed. -/
def componentNumbers (g : Graph) : List Nat :=
  let numbered := g.components.reverse
  (List.range g.length).map fun node => numbered.findIdx (·.contains node)

end Graph

end Protobuf

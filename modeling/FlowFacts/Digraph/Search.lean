import FlowFacts.BitSet
import FlowFacts.Digraph

/-!
Depth-first search with a stack. A node is marked when it is pushed, so it is pushed at most once,
and the first unmarked successor is on top.
-/

set_option autoImplicit false
set_option relaxedAutoImplicit false

namespace FlowFacts.Digraph

/-- The nodes on the stack, top first, and the nodes pushed so far. -/
structure Frontier where
  stack : List Nat
  marked : BitSet

/-- Pushes a node unless it was pushed before. -/
def Frontier.push (f : Frontier) (v : Nat) : Frontier :=
  if f.marked.contains v then f else { stack := v :: f.stack, marked := f.marked.insert v }

/-- The order in which nodes leave the stack, for at most `budget` nodes. -/
def searchFrom (g : Digraph) : Nat → Frontier → List Nat
  | 0, _ => []
  | budget + 1, f =>
    match f.stack with
    | [] => []
    | v :: rest =>
      v :: searchFrom g budget ((g.succs v).reverse.foldl Frontier.push { f with stack := rest })

/-- Every node but the start is pushed from its own place in a successor list. -/
def searchBudget (g : Digraph) : Nat :=
  1 + (g.nodes.toList.flatMap Neighbours.succs).length

/-- The nodes reachable from `start` in the order of the search; none if `start` is past the end. -/
def search (g : Digraph) (start : Nat) : List Nat :=
  if start < g.size then
    searchFrom g g.searchBudget (Frontier.push { stack := [], marked := BitSet.new g.size } start)
  else
    []

def reachable (g : Digraph) (start : Nat) : BitSet :=
  BitSet.ofList g.size (g.search start)

end FlowFacts.Digraph

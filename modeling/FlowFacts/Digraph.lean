/-!
Directed graphs with a distinguished entry, given by ordered successor and predecessor lists. Nodes
are numbered from zero. A list may repeat a node or name one past the end, and a node past the end
has no neighbours.
-/

set_option autoImplicit false
set_option relaxedAutoImplicit false

namespace FlowFacts

structure Neighbours where
  succs : List Nat
  preds : List Nat
  deriving Inhabited

structure Digraph where
  nodes : Array Neighbours
  entry : Nat
  deriving Inhabited

namespace Digraph

def size (g : Digraph) : Nat :=
  g.nodes.size

def succs (g : Digraph) (v : Nat) : List Nat :=
  match g.nodes[v]? with
  | some node => node.succs
  | none => []

def preds (g : Digraph) (v : Nat) : List Nat :=
  match g.nodes[v]? with
  | some node => node.preds
  | none => []

/-- The targets of the edges out of `v`, in the order of the edges. -/
def targetsOf (edges : List (Nat × Nat)) (v : Nat) : List Nat :=
  (edges.filter (·.1 == v)).map (·.2)

/-- The sources of the edges into `v`, in the order of the edges. -/
def sourcesOf (edges : List (Nat × Nat)) (v : Nat) : List Nat :=
  (edges.filter (·.2 == v)).map (·.1)

/-- The graph on `n` nodes with the given edges. Edges out of a node past the end are dropped. -/
def ofEdges (n entry : Nat) (edges : List (Nat × Nat)) : Digraph where
  nodes := (Array.range n).map fun v ↦
    { succs := targetsOf edges v
      preds := (sourcesOf edges v).filter (· < n) }
  entry := entry

end Digraph

end FlowFacts

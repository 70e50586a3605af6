import FlowFacts.Digraph.Search

/-!
Dominators: `a` dominates `b` when every path from the entry to `b` passes through `a`. The entry
starts with itself alone and every other node with all nodes; rounds of refinement shrink the sets
until none changes. A node that the entry does not reach keeps a set that says nothing, so every
query lets such a node be dominated by itself only.
-/

set_option autoImplicit false
set_option relaxedAutoImplicit false

namespace FlowFacts

namespace Digraph

/-- Each node's candidates for dominators, by node. -/
abbrev Candidates := Array BitSet

def initialCandidates (g : Digraph) : Candidates :=
  (Array.range g.size).map fun v ↦
    if v = g.entry then BitSet.ofList g.size [v] else BitSet.full g.size

/-- The node itself and whatever dominates all its predecessors. -/
def refined (g : Digraph) (sets : Candidates) (v : Nat) : BitSet :=
  ((g.preds v).foldl
    (fun common p ↦
      match sets[p]? with
      | some s => common.inter s
      | none => common)
    (BitSet.full g.size)).insert v

/-- Refines one node in place and records whether its set changed. -/
def refineNode (g : Digraph) (state : Candidates × Bool) (v : Nat) : Candidates × Bool :=
  if v = g.entry then state
  else
    let next := g.refined state.1 v
    if some next == state.1[v]? then state else (state.1.setIfInBounds v next, true)

/-- One round over all nodes in order; later nodes see the sets refined before them. -/
def refineRound (g : Digraph) (sets : Candidates) : Candidates × Bool :=
  (List.range g.size).foldl g.refineNode (sets, false)

/-- Rounds until nothing changes, at most `budget` of them, and how many there were. -/
def refineRounds (g : Digraph) : Nat → Candidates → Nat → Candidates × Nat
  | 0, sets, rounds => (sets, rounds)
  | budget + 1, sets, rounds =>
    let (next, changed) := g.refineRound sets
    if changed then refineRounds g budget next (rounds + 1) else (next, rounds + 1)

/-- Every round but the last takes a member out of one of `size` sets of `size` members. -/
def roundBudget (g : Digraph) : Nat :=
  g.size * g.size + 1

end Digraph

structure Dominators where
  entry : Nat
  sets : Array BitSet
  reachable : BitSet
  /-- The closest strict dominator by node; none for the entry and for unreachable nodes. -/
  immediate : Array (Option Nat)
  rounds : Nat

namespace Dominators

/-- The strict dominator that all other strict dominators of `v` dominate. -/
def closest? (entry : Nat) (sets : Array BitSet) (reachable : BitSet) (v : Nat) : Option Nat :=
  if v = entry || !reachable.contains v then none
  else
    let strict := (sets.getD v ∅).erase v
    strict.toList.find? fun d ↦ (strict.erase d).isSubset (sets.getD d ∅)

def ofDigraph (g : Digraph) : Dominators :=
  if g.size = 0 then { entry := 0, sets := #[], reachable := ∅, immediate := #[], rounds := 0 }
  else
    let (sets, rounds) := g.refineRounds g.roundBudget g.initialCandidates 0
    let reachable := g.reachable g.entry
    { entry := g.entry
      sets := sets
      reachable := reachable
      immediate := (Array.range g.size).map (closest? g.entry sets reachable)
      rounds := rounds }

def size (d : Dominators) : Nat :=
  d.sets.size

def isReachable (d : Dominators) (v : Nat) : Bool :=
  d.reachable.contains v

def dominates (d : Dominators) (a b : Nat) : Bool :=
  match d.sets[b]? with
  | none => false
  | some set => a == b || (d.isReachable b && set.contains a)

def strictlyDominates (d : Dominators) (a b : Nat) : Bool :=
  a != b && d.dominates a b

/-- The dominators of a node in ascending order. -/
def dominatorsOf (d : Dominators) (v : Nat) : List Nat :=
  match d.sets[v]? with
  | none => []
  | some set => if d.isReachable v then set.toList else [v]

def immediate? (d : Dominators) (v : Nat) : Option Nat :=
  (d.immediate[v]?).join

/-- The nodes that `v` dominates immediately, in ascending order. -/
def children (d : Dominators) (v : Nat) : List Nat :=
  (List.range d.immediate.size).filter fun child ↦ d.immediate? child == some v

/-- How many immediate dominators follow one another above `v`, at most `budget`. -/
def climb (d : Dominators) : Nat → Nat → Nat
  | 0, _ => 0
  | budget + 1, v =>
    match d.immediate? v with
    | none => 0
    | some parent => climb d budget parent + 1

/-- The depth of a node in the tree of immediate dominators. -/
def depth (d : Dominators) (v : Nat) : Nat :=
  d.climb d.size v

end Dominators

end FlowFacts

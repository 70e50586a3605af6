import FlowFacts.Digraph.Dominators

/-!
Natural loops. A back edge leads from a reachable node, the latch, to a node that dominates it, the
header. The loop of a header is the header and every reachable node from which a latch can be
reached without passing the header; all back edges into one header make one loop. Loops nest by
inclusion of their bodies.
-/

set_option autoImplicit false
set_option relaxedAutoImplicit false

namespace FlowFacts

/-- The first of the least elements. -/
def leastBy? {α : Type} (less : α → α → Bool) : List α → Option α
  | [] => none
  | a :: as => some (as.foldl (fun best x ↦ if less x best then x else best) a)

/-- Puts an element in front of the first one that it may stand before. -/
def insertBy {α : Type} (le : α → α → Bool) (a : α) : List α → List α
  | [] => [a]
  | b :: bs => if le a b then a :: b :: bs else b :: insertBy le a bs

/-- Sorts by insertion; equal elements keep their order. -/
def sortBy {α : Type} (le : α → α → Bool) (items : List α) : List α :=
  items.foldr (insertBy le) []

structure Loop where
  header : Nat
  body : BitSet
  /-- The number of nodes in the body. -/
  size : Nat
  size_eq : size = body.count := by rfl
  latches : BitSet
  /-- The nodes outside the body that an edge out of the body leads to. -/
  exits : BitSet
  /-- The only predecessor of the header outside the body, if there is exactly one. -/
  preheader : Option Nat

namespace Loop

def contains (l : Loop) (v : Nat) : Bool :=
  l.body.contains v

def isSelfLoop (l : Loop) : Bool :=
  l.size == 1 && l.latches.contains l.header

/-- The loop of a header in a graph of `n` nodes, before its back edges are added. -/
def ofHeader (n header : Nat) : Loop where
  header := header
  body := BitSet.ofList n [header]
  size := (BitSet.ofList n [header]).count
  latches := BitSet.new n
  exits := BitSet.new n
  preheader := none

end Loop

namespace Digraph

/-- The edges out of reachable nodes whose target dominates their source, in edge order. -/
def backEdges (g : Digraph) (d : Dominators) : List (Nat × Nat) :=
  ((List.range g.size).filter d.isReachable).flatMap fun source ↦
    ((g.succs source).filter (d.dominates · source)).map fun header ↦ (source, header)

/-- Adds the pending nodes to the body and goes on to the reachable predecessors of each new one,
for at most `budget` pending nodes. The last predecessor is on top. -/
def loopBody (g : Digraph) (reachable : BitSet) : Nat → List Nat → BitSet → BitSet
  | 0, _, body => body
  | _ + 1, [], body => body
  | budget + 1, v :: pending, body =>
    if body.contains v then loopBody g reachable budget pending body
    else
      loopBody g reachable budget (((g.preds v).filter reachable.contains).reverse ++ pending)
        (body.insert v)

/-- Every pending node is the latch or has its own place in a predecessor list. -/
def bodyBudget (g : Digraph) : Nat :=
  1 + (g.nodes.toList.flatMap Neighbours.preds).length

/-- Adds the source of a back edge and what leads to it. The header is in the body from the start,
so the walk does not go past it. -/
def addLatch (g : Digraph) (d : Dominators) (l : Loop) (latch : Nat) : Loop :=
  let body := g.loopBody d.reachable g.bodyBudget [latch] l.body
  { l with body := body, size := body.count, size_eq := rfl, latches := l.latches.insert latch }

/-- Adds a back edge to the loop of its header, which is a new one if no loop has that header. -/
def addBackEdge (g : Digraph) (d : Dominators) (loops : List Loop) (edge : Nat × Nat) :
    List Loop :=
  match loops.findIdx? (·.header == edge.2) with
  | some k => loops.modify k (g.addLatch d · edge.1)
  | none => loops ++ [g.addLatch d (.ofHeader g.size edge.2) edge.1]

def loopExits (g : Digraph) (body : BitSet) : BitSet :=
  BitSet.ofList g.size ((body.toList.flatMap g.succs).filter (!body.contains ·))

def loopPreheader (g : Digraph) (header : Nat) (body : BitSet) : Option Nat :=
  match (g.preds header).filter (!body.contains ·) with
  | [only] => some only
  | _ => none

/-- Looks at the edges out of the body and into the header. -/
def withBorder (g : Digraph) (l : Loop) : Loop :=
  { l with exits := g.loopExits l.body, preheader := g.loopPreheader l.header l.body }

/-- The loops of the back edges, by header. -/
def collectLoops (g : Digraph) (d : Dominators) (backEdges : List (Nat × Nat)) : List Loop :=
  sortBy (fun a b ↦ a.header ≤ b.header)
    ((backEdges.foldl (g.addBackEdge d) []).map g.withBorder)

end Digraph

/-- All loops of a graph in ascending order of their headers. -/
structure LoopNest where
  dominators : Dominators
  backEdges : List (Nat × Nat)
  loops : List Loop
  /-- The header of the smallest loop around a node that the node does not head, by node. -/
  parents : Array (Option Nat)
  /-- The headers of the loops that have a node for parent, by node. -/
  childHeaders : Array (List Nat)
  /-- How many parents follow one another above a node, by node. -/
  levels : Array Nat
  nodeCount : Nat

namespace LoopNest

/-- The header of the smallest loop around `v` that `v` does not head. -/
def closest? (loops : List Loop) (v : Nat) : Option Nat :=
  (leastBy? (fun a b ↦ a.size < b.size)
    (loops.filter fun outer ↦ outer.header != v && outer.contains v)).map Loop.header

/-- Adds a loop to those that have its parent, if there is a loop with that header. -/
def addChild (loops : List Loop) (parents : Array (Option Nat)) (children : Array (List Nat))
    (inner : Loop) : Array (List Nat) :=
  match (parents[inner.header]?).join with
  | none => children
  | some parent =>
    if loops.any (·.header == parent) then children.modify parent (· ++ [inner.header])
    else children

/-- How many parents follow one another above `v`, at most `budget`. -/
def climb (parents : Array (Option Nat)) : Nat → Nat → Nat
  | 0, _ => 0
  | budget + 1, v =>
    match (parents[v]?).join with
    | none => 0
    | some parent => climb parents budget parent + 1

def ofDigraph (g : Digraph) : LoopNest :=
  let dominators := Dominators.ofDigraph g
  let backEdges := g.backEdges dominators
  let loops := g.collectLoops dominators backEdges
  let parents := (Array.range g.size).map (closest? loops)
  { dominators := dominators
    backEdges := backEdges
    loops := loops
    parents := parents
    childHeaders := loops.foldl (addChild loops parents) (Array.replicate g.size [])
    levels := (Array.range g.size).map (climb parents loops.length)
    nodeCount := g.size }

def loop? (nest : LoopNest) (header : Nat) : Option Loop :=
  nest.loops.find? (·.header == header)

def isHeader (nest : LoopNest) (v : Nat) : Bool :=
  (nest.loop? v).isSome

/-- The header of the smallest other loop that contains the header of `l`. -/
def parent? (nest : LoopNest) (l : Loop) : Option Nat :=
  (nest.parents[l.header]?).join

/-- The loops whose parent is `l`, by header. -/
def children (nest : LoopNest) (l : Loop) : List Loop :=
  (nest.childHeaders.getD l.header []).filterMap nest.loop?

/-- One for an outermost loop and one more for each loop around it. -/
def depth (nest : LoopNest) (l : Loop) : Nat :=
  1 + nest.levels.getD l.header 0

def isInnermost (nest : LoopNest) (l : Loop) : Bool :=
  (nest.childHeaders.getD l.header []).isEmpty

def isOutermost (nest : LoopNest) (l : Loop) : Bool :=
  (nest.parent? l).isNone

/-- The loops around a node, outermost first. -/
def containing (nest : LoopNest) (v : Nat) : List Loop :=
  sortBy
    (fun a b ↦ nest.depth a < nest.depth b || (nest.depth a == nest.depth b && a.header ≤ b.header))
    (nest.loops.filter (·.contains v))

/-- The smallest loop around a node; of two equally small ones the deeper. -/
def innermost? (nest : LoopNest) (v : Nat) : Option Loop :=
  leastBy? (fun a b ↦ a.size < b.size || (a.size == b.size && nest.depth b < nest.depth a))
    (nest.loops.filter (·.contains v))

/-- The number of loops around a node. -/
def depthAt (nest : LoopNest) (v : Nat) : Nat :=
  nest.loops.countP (·.contains v)

/-- The loops whose body no larger body includes. -/
def outermost (nest : LoopNest) : List Loop :=
  nest.loops.filter fun l ↦
    !nest.loops.any fun outer ↦ l.size < outer.size && l.body.isSubset outer.body

/-- The children of the loop of a header; none if the node heads no loop. -/
def childrenOf (nest : LoopNest) (header : Nat) : List Loop :=
  match nest.loop? header with
  | some l => nest.children l
  | none => []

end LoopNest

end FlowFacts

import FlowFacts.FlowGraph

/-!
Dataflow analyses. An analysis says in which direction facts travel, what is known before anything
has been seen, how facts from several sources combine and what an instruction does to a fact. No law
is required of these functions.
-/

set_option autoImplicit false
set_option relaxedAutoImplicit false

namespace FlowFacts

inductive Direction where
  | forward
  | backward
  deriving DecidableEq, Inhabited

namespace Direction

def all : List Direction := [forward, backward]

def token : Direction → String
  | forward => "forward"
  | backward => "backward"

/-- The blocks that facts go to. -/
def targets : Direction → Block → List Nat
  | forward, block => block.succs
  | backward, block => block.preds

/-- The blocks of a graph in the order in which they are first visited. -/
def order : Direction → FlowGraph → List Nat
  | forward, g => g.blockIds
  | backward, g => g.blockIds.reverse

end Direction

structure Analysis (L : Type) where
  name : String
  direction : Direction
  initial : L
  meet : L → L → L
  transfer : Instr → L → L

/-- What is known at the start and the end of every block, and before and after every
instruction. -/
structure Facts (L : Type) where
  blockIn : Array L
  blockOut : Array L
  instrIn : Array L
  instrOut : Array L
  deriving BEq

namespace Facts

variable {L : Type}

def new (g : FlowGraph) (initial : L) : Facts L where
  blockIn := Array.replicate g.blockCount initial
  blockOut := Array.replicate g.blockCount initial
  instrIn := Array.replicate g.instrCount initial
  instrOut := Array.replicate g.instrCount initial

/-- The first `n` facts, followed by as many copies of `initial` as are missing. -/
def resize (facts : Array L) (n : Nat) (initial : L) : Array L :=
  (facts.take n).rightpad n initial

/-- Makes the facts cover exactly the blocks and instructions of a graph. -/
def fit (facts : Facts L) (g : FlowGraph) (initial : L) : Facts L where
  blockIn := resize facts.blockIn g.blockCount initial
  blockOut := resize facts.blockOut g.blockCount initial
  instrIn := resize facts.instrIn g.instrCount initial
  instrOut := resize facts.instrOut g.instrCount initial

end Facts

namespace Analysis

variable {L : Type}

/-! ### Going forward -/

/-- What a block takes in: the facts at the ends of its predecessors, combined from the initial fact
on. -/
def meetPreds (a : Analysis L) (facts : Facts L) (block : Block) : L :=
  block.preds.foldl
    (fun input pred ↦
      match facts.blockOut[pred]? with
      | some out => a.meet input out
      | none => input)
    a.initial

/-- Takes a fact through instructions, from before to after each, and records it on both sides. -/
def threadDown (a : Analysis L) : List Instr → L → Facts L → L × Facts L
  | [], current, facts => (current, facts)
  | i :: rest, current, facts =>
    let next := a.transfer i current
    threadDown a rest next
      { facts with
        instrOut := facts.instrOut.setIfInBounds i.id next
        instrIn := facts.instrIn.setIfInBounds i.id current }

/-- Recomputes one block and says whether the fact at its start or its end changed. -/
def visitForward [BEq L] (a : Analysis L) (b : Nat) (block : Block) (facts : Facts L) :
    Facts L × Bool :=
  let input := a.meetPreds facts block
  let changedIn := some input != facts.blockIn[b]?
  let facts := { facts with blockIn := facts.blockIn.setIfInBounds b input }
  let (current, facts) := a.threadDown block.instrs input facts
  let changedOut := some current != facts.blockOut[b]?
  ({ facts with blockOut := facts.blockOut.setIfInBounds b current }, changedIn || changedOut)

/-! ### Going backward -/

/-- What a block takes in: the facts at the starts of its successors, combined from the initial fact
on. -/
def meetSuccs (a : Analysis L) (facts : Facts L) (block : Block) : L :=
  block.succs.foldl
    (fun output succ ↦
      match facts.blockIn[succ]? with
      | some input => a.meet output input
      | none => output)
    a.initial

/-- Takes a fact through instructions, from after to before each, and records it on both sides. -/
def threadUp (a : Analysis L) : List Instr → L → Facts L → L × Facts L
  | [], current, facts => (current, facts)
  | i :: rest, current, facts =>
    let next := a.transfer i current
    threadUp a rest next
      { facts with
        instrIn := facts.instrIn.setIfInBounds i.id next
        instrOut := facts.instrOut.setIfInBounds i.id current }

/-- Recomputes one block, its last instruction first, and says whether the fact at its end or its
start changed. -/
def visitBackward [BEq L] (a : Analysis L) (b : Nat) (block : Block) (facts : Facts L) :
    Facts L × Bool :=
  let output := a.meetSuccs facts block
  let changedOut := some output != facts.blockOut[b]?
  let facts := { facts with blockOut := facts.blockOut.setIfInBounds b output }
  let (current, facts) := a.threadUp block.instrs.reverse output facts
  let changedIn := some current != facts.blockIn[b]?
  ({ facts with blockIn := facts.blockIn.setIfInBounds b current }, changedOut || changedIn)

/-! ### Either way -/

/-- Recomputes one block in the direction of the analysis. -/
def visit [BEq L] (a : Analysis L) (b : Nat) (block : Block) (facts : Facts L) :
    Facts L × Bool :=
  match a.direction with
  | .forward => a.visitForward b block facts
  | .backward => a.visitBackward b block facts

end Analysis

end FlowFacts

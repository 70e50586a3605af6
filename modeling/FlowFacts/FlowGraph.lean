import FlowFacts.Digraph.Loops
import FlowFacts.Instr

/-!
Control-flow graphs: numbered blocks of instructions with ordered edges between them, and a table of
variable names. Block zero is the entry. Queries about a block or variable past the end find
nothing.
-/

set_option autoImplicit false
set_option relaxedAutoImplicit false

namespace FlowFacts

def blockLabel (b : Nat) : String :=
  "B" ++ toString b

def instrLabel (i : Nat) : String :=
  "i" ++ toString i

def varLabel (v : Nat) : String :=
  "v" ++ toString v

structure Block where
  instrs : List Instr
  succs : List Nat
  preds : List Nat
  deriving Inhabited

/-- The last instruction. -/
def Block.terminator? (b : Block) : Option Instr :=
  b.instrs.getLast?

structure FlowGraph where
  blocks : Array Block
  varNames : Array String
  deriving Inhabited

namespace FlowGraph

def blockCount (g : FlowGraph) : Nat :=
  g.blocks.size

def isEmpty (g : FlowGraph) : Bool :=
  g.blocks.isEmpty

def entry (_ : FlowGraph) : Nat :=
  0

def block? (g : FlowGraph) (b : Nat) : Option Block :=
  g.blocks[b]?

/-- The control flow alone. -/
def toDigraph (g : FlowGraph) : Digraph where
  nodes := g.blocks.map fun b ↦ { succs := b.succs, preds := b.preds }
  entry := g.entry

def succs (g : FlowGraph) (b : Nat) : List Nat :=
  match g.block? b with
  | some block => block.succs
  | none => []

def preds (g : FlowGraph) (b : Nat) : List Nat :=
  match g.block? b with
  | some block => block.preds
  | none => []

/-- The blocks in order. -/
def blockIds (g : FlowGraph) : List Nat :=
  List.range g.blockCount

/-- The blocks without successors, in ascending order. -/
def exits (g : FlowGraph) : List Nat :=
  g.blockIds.filter fun b ↦ (g.succs b).isEmpty

/-- All edges, by source and then in the order of its successors. -/
def edges (g : FlowGraph) : List (Nat × Nat) :=
  g.blockIds.flatMap fun b ↦ (g.succs b).map fun s ↦ (b, s)

/-- All instructions, by block and then in execution order. -/
def instrs (g : FlowGraph) : List Instr :=
  g.blocks.toList.flatMap Block.instrs

def instrCount (g : FlowGraph) : Nat :=
  g.instrs.length

/-- The block of an instruction and its place there. -/
def locate? (g : FlowGraph) (i : Nat) : Option (Nat × Nat) :=
  g.blocks.toList.zipIdx.findSome? fun (block, b) ↦
    (block.instrs.findIdx? (·.id == i)).map fun k ↦ (b, k)

def varCount (g : FlowGraph) : Nat :=
  g.varNames.size

def varName (g : FlowGraph) (v : Nat) : String :=
  g.varNames.getD v "?"

def var? (g : FlowGraph) (name : String) : Option Nat :=
  g.varNames.findIdx? (· == name)

def loops (g : FlowGraph) : LoopNest :=
  LoopNest.ofDigraph g.toDigraph

def instrText (g : FlowGraph) (i : Instr) : String :=
  i.stmt.text g.varName

/-- One line for each block with its successors, followed by its instructions. -/
def listing (g : FlowGraph) : String :=
  String.join (g.blocks.toList.zipIdx.map fun (block, b) ↦
    blockLabel b ++ " -> [" ++ ", ".intercalate (block.succs.map blockLabel) ++ "]\n" ++
      String.join (block.instrs.map fun i ↦
        "    " ++ instrLabel i.id ++ ": " ++ g.instrText i ++ "\n"))

end FlowGraph

end FlowFacts

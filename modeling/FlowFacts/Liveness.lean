import FlowFacts.Analysis.Results
import FlowFacts.Text.Braced

/-!
Live variables: which variables may be read before they are written again.
-/

set_option autoImplicit false
set_option relaxedAutoImplicit false

namespace FlowFacts.Liveness

/-- The variables that an instruction reads. -/
def gen (g : FlowGraph) (i : Instr) : BitSet :=
  BitSet.ofList g.varCount i.reads

/-- The variable that an instruction writes, as a set. -/
def kill (g : FlowGraph) (i : Instr) : BitSet :=
  BitSet.ofList g.varCount i.target?.toList

/-- What is live before an instruction, from what is live after it: the variable written is not,
unless it is also read. -/
def transfer (i : Instr) (live : BitSet) : BitSet :=
  let kept :=
    match i.target? with
    | some v => live.erase v
    | none => live
  i.reads.foldl BitSet.insert kept

def analysis (g : FlowGraph) : Analysis BitSet where
  name := "LiveVariables"
  direction := .backward
  initial := BitSet.new g.varCount
  meet := BitSet.union
  transfer := transfer

def liveAfter (r : Results BitSet) (i : Nat) : BitSet :=
  r.instrOut i

def liveBefore (r : Results BitSet) (i : Nat) : BitSet :=
  r.instrIn i

/-- The assignments to variables that are not live afterwards. -/
def deadStores (g : FlowGraph) (r : Results BitSet) : List Instr :=
  g.instrs.filter fun i ↦
    match i.target? with
    | some v => !(liveAfter r i.id).contains v
    | none => false

def report (g : FlowGraph) (r : Results BitSet) : String :=
  r.report g "live variables" fun fact ↦ Text.braced (fact.toList.map g.varName)

end FlowFacts.Liveness

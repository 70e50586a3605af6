import FlowFacts.Analysis.Solver

/-!
Results of a converged analysis: the facts at the start and end of every block and instruction, with
the initial fact wherever a graph is asked about more than was solved, and their printed report.
-/

set_option autoImplicit false
set_option relaxedAutoImplicit false

namespace FlowFacts

structure Results (L : Type) where
  initial : L
  direction : Direction
  strategy : Strategy
  iterations : Nat
  facts : Facts L
  deriving BEq

namespace Results

variable {L : Type}

def ofFacts (facts : Facts L) (initial : L) (direction : Direction) (stats : Stats) :
    Results L where
  initial := initial
  direction := direction
  strategy := stats.strategy
  iterations := stats.iterations
  facts := facts

def blockCount (r : Results L) : Nat :=
  r.facts.blockIn.size

def blockIn (r : Results L) (b : Nat) : L :=
  r.facts.blockIn.getD b r.initial

def blockOut (r : Results L) (b : Nat) : L :=
  r.facts.blockOut.getD b r.initial

def instrIn (r : Results L) (i : Nat) : L :=
  r.facts.instrIn.getD i r.initial

def instrOut (r : Results L) (i : Nat) : L :=
  r.facts.instrOut.getD i r.initial

/-- Equal facts everywhere, however they were found. -/
def sameFacts [BEq L] (r s : Results L) : Bool :=
  r.facts.blockIn == s.facts.blockIn && r.facts.blockOut == s.facts.blockOut &&
    r.facts.instrIn == s.facts.instrIn && r.facts.instrOut == s.facts.instrOut

/-- The fact that an instruction produces. -/
def instrResult (r : Results L) (i : Nat) : L :=
  match r.direction with
  | .forward => r.instrOut i
  | .backward => r.instrIn i

def reportBlock (r : Results L) (g : FlowGraph) (render : L → String) (b : Nat)
    (block : Block) : String :=
  blockLabel b ++ "\n  in:  " ++ render (r.blockIn b) ++ "\n" ++
    String.join (block.instrs.map fun i ↦
      "    " ++ instrLabel i.id ++ ": " ++ g.instrText i ++ "    " ++
        render (r.instrResult i.id) ++ "\n") ++
    "  out: " ++ render (r.blockOut b) ++ "\n"

/-- The facts of every block and instruction under a title. -/
def report (r : Results L) (g : FlowGraph) (title : String) (render : L → String) : String :=
  "== " ++ title ++ " ==\n" ++
    String.join (g.blocks.toList.zipIdx.map fun (block, b) ↦ r.reportBlock g render b block)

end Results

namespace Analysis

variable {L : Type}

/-- The results of a run, if it converged. -/
def resultsOf (a : Analysis L) (run : Run L) : Except NonConvergence (Results L) :=
  run.outcome.map fun stats ↦ Results.ofFacts run.facts a.initial a.direction stats

def solve [BEq L] (a : Analysis L) (c : Config) (g : FlowGraph) :
    Except NonConvergence (Results L) :=
  a.resultsOf (a.run c g)

end Analysis

end FlowFacts

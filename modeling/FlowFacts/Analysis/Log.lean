import FlowFacts.Analysis.Solver

/-!
The log of a run: what is solved, every iteration with a progress line now and then, and how the run
ended.
-/

set_option autoImplicit false
set_option relaxedAutoImplicit false

namespace FlowFacts

namespace Log

inductive Level where
  | trace
  | debug
  | warn
  deriving DecidableEq

def Level.token : Level → String
  | trace => "TRACE"
  | debug => "DEBUG"
  | warn => "WARN"

inductive Value where
  | text (value : String)
  | number (value : Nat)
  | flag (value : Bool)
  deriving DecidableEq

structure Line where
  level : Level
  message : String
  fields : List (String × Value)
  deriving DecidableEq

/-- Progress is logged at every hundredth iteration unless an interval is given. -/
def defaultInterval : Nat :=
  100

def blockText : Option Nat → String
  | none => "None"
  | some b => "Some(" ++ blockLabel b ++ ")"

def solving {L : Type} (a : Analysis L) (strategy : Strategy) (g : FlowGraph) : Line where
  level := .debug
  message := "solving dataflow analysis"
  fields := [
    ("analysis", .text a.name),
    ("strategy", .text strategy.token),
    ("direction", .text a.direction.token),
    ("blocks", .number g.blockCount),
    ("instructions", .number g.instrCount)]

def step (analysis : String) (strategy : Strategy) (e : Event) : Line where
  level := .trace
  message := "dataflow step"
  fields := [
    ("analysis", .text analysis),
    ("strategy", .text strategy.token),
    ("iteration", .number e.iteration),
    ("block", .text (blockText e.block)),
    ("changed", .flag e.changed)]

def progress (analysis : String) (strategy : Strategy) (e : Event) : Line where
  level := .debug
  message := "dataflow iteration progress"
  fields := [
    ("analysis", .text analysis),
    ("strategy", .text strategy.token),
    ("iteration", .number e.iteration),
    ("changed", .flag e.changed)]

/-- An interval of zero leaves the progress lines out. -/
def ofEvent (analysis : String) (strategy : Strategy) (interval : Nat) (e : Event) : List Line :=
  step analysis strategy e ::
    if interval ≠ 0 ∧ e.iteration % interval = 0 then [progress analysis strategy e] else []

def ended (analysis : String) : Except NonConvergence Stats → Line
  | .error e =>
    { level := .warn
      message := "dataflow analysis did not converge"
      fields := [
        ("analysis", .text e.analysis),
        ("strategy", .text e.strategy.token),
        ("limit", .number e.limit)] }
  | .ok stats =>
    { level := .debug
      message := "dataflow analysis converged"
      fields := [
        ("analysis", .text analysis),
        ("iterations", .number stats.iterations),
        ("block_visits", .number stats.blockVisits)] }

/-- The lines of one run in order. -/
def ofRun {L : Type} (a : Analysis L) (strategy : Strategy) (g : FlowGraph) (interval : Nat)
    (run : Run L) : List Line :=
  solving a strategy g ::
    (run.events.toList.flatMap (ofEvent a.name strategy interval) ++ [ended a.name run.outcome])

def loopsFound (nest : LoopNest) : Line where
  level := .debug
  message := "loop analysis finished"
  fields := [
    ("blocks", .number nest.nodeCount),
    ("back_edges", .number nest.backEdges.length),
    ("loops", .number nest.loops.length)]

end Log

end FlowFacts

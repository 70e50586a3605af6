import FlowFacts.Analysis

/-!
Two ways to a fixpoint. Sweeping visits all blocks again and again until a sweep changes nothing.
The worklist starts with all blocks and, whenever a visit changes a block, queues the blocks that
its facts go to. Both stop at a limit, and a run that stops there keeps the facts and the events so
far.
-/

set_option autoImplicit false
set_option relaxedAutoImplicit false

namespace FlowFacts

inductive Strategy where
  | naive
  | worklist
  deriving DecidableEq, Inhabited

namespace Strategy

def all : List Strategy := [naive, worklist]

def token : Strategy → String
  | naive => "naive"
  | worklist => "worklist"

def ofToken? (token : String) : Option Strategy :=
  all.find? (·.token == token)

end Strategy

/-- Which strategy to use, and how many iterations each may take. -/
structure Config where
  strategy : Strategy := .worklist
  naiveLimit : Nat := 1000
  worklistLimit : Nat := 10000
  deriving DecidableEq, Inhabited

namespace Config

def withStrategy (c : Config) (strategy : Strategy) : Config :=
  { c with strategy := strategy }

/-- Sets the limit of the chosen strategy. -/
def withLimit (c : Config) (limit : Nat) : Config :=
  match c.strategy with
  | .naive => { c with naiveLimit := limit }
  | .worklist => { c with worklistLimit := limit }

def limit (c : Config) : Nat :=
  match c.strategy with
  | .naive => c.naiveLimit
  | .worklist => c.worklistLimit

end Config

/-- A finished iteration: a whole sweep, or the visit of one block from the worklist. -/
structure Event where
  iteration : Nat
  block : Option Nat
  changed : Bool
  deriving DecidableEq

structure Stats where
  strategy : Strategy
  iterations : Nat
  blockVisits : Nat
  deriving DecidableEq

structure NonConvergence where
  analysis : String
  strategy : Strategy
  limit : Nat
  deriving DecidableEq

def NonConvergence.message (e : NonConvergence) : String :=
  e.strategy.token ++ " solver for " ++ e.analysis ++ " did not converge within " ++
    toString e.limit ++ " iterations"

/-- What a solver leaves behind, whether it converged or not. -/
structure Run (L : Type) where
  facts : Facts L
  events : Array Event
  outcome : Except NonConvergence Stats

/-- Repeats a step until `done`, at most `limit` times. -/
def iterateUntil {σ : Type} (done : σ → Bool) (step : σ → σ) : Nat → σ → σ
  | 0, s => s
  | limit + 1, s => if done s then s else iterateUntil done step limit (step s)

/-- Blocks waiting for a visit, first come first served, and the same blocks as a set. -/
structure Worklist where
  queue : List Nat
  queued : BitSet

namespace Worklist

/-- Queues a block unless it is waiting already. -/
def push (w : Worklist) (b : Nat) : Worklist :=
  if w.queued.contains b then w else { queue := w.queue ++ [b], queued := w.queued.insert b }

def pop? (w : Worklist) : Option (Nat × Worklist) :=
  match w.queue with
  | [] => none
  | b :: rest => some (b, { queue := rest, queued := w.queued.erase b })

end Worklist

/-- The state of the sweeping solver; `settled` after a sweep that changed nothing. -/
structure Sweeping (L : Type) where
  facts : Facts L
  events : Array Event
  settled : Bool

/-- The state of the worklist solver. -/
structure Revisiting (L : Type) where
  facts : Facts L
  events : Array Event
  work : Worklist
  iterations : Nat

namespace Analysis

variable {L : Type}

/-- All blocks wait at first. -/
def initialWork (a : Analysis L) (g : FlowGraph) : Worklist where
  queue := a.direction.order g
  queued := BitSet.full g.blockCount

variable [BEq L]

/-- Visits one block of a sweep. -/
def sweepBlock (a : Analysis L) (g : FlowGraph) (state : Facts L × Bool) (b : Nat) :
    Facts L × Bool :=
  match g.block? b with
  | none => state
  | some block =>
    let (facts, changed) := a.visit b block state.1
    (facts, state.2 || changed)

/-- Visits every block once and says whether anything changed. -/
def sweep (a : Analysis L) (g : FlowGraph) (facts : Facts L) : Facts L × Bool :=
  (a.direction.order g).foldl (a.sweepBlock g) (facts, false)

def sweepStep (a : Analysis L) (g : FlowGraph) (s : Sweeping L) : Sweeping L :=
  let (facts, changed) := a.sweep g s.facts
  { facts := facts
    events := s.events.push { iteration := s.events.size + 1, block := none, changed := changed }
    settled := !changed }

def solveNaive (a : Analysis L) (g : FlowGraph) (limit : Nat) (facts : Facts L) : Run L :=
  if g.isEmpty then
    { facts := facts
      events := #[]
      outcome := .ok { strategy := .naive, iterations := 0, blockVisits := 0 } }
  else
    let final := iterateUntil Sweeping.settled (a.sweepStep g) limit
      { facts := facts.fit g a.initial, events := #[], settled := false }
    { facts := final.facts
      events := final.events
      outcome :=
        if final.settled then
          .ok {
            strategy := .naive
            iterations := final.events.size
            blockVisits := final.events.size * g.blockCount }
        else .error { analysis := a.name, strategy := .naive, limit := limit } }

/-- Visits the first waiting block. -/
def worklistStep (a : Analysis L) (g : FlowGraph) (s : Revisiting L) : Revisiting L :=
  match s.work.pop? with
  | none => s
  | some (b, rest) =>
    match g.block? b with
    | none => { s with work := rest, iterations := s.iterations + 1 }
    | some block =>
      let (facts, changed) := a.visit b block s.facts
      { facts := facts
        events := s.events.push
          { iteration := s.iterations + 1, block := some b, changed := changed }
        work := if changed then (a.direction.targets block).foldl Worklist.push rest else rest
        iterations := s.iterations + 1 }

def solveWorklist (a : Analysis L) (g : FlowGraph) (limit : Nat) (facts : Facts L) : Run L :=
  if g.isEmpty then
    { facts := facts
      events := #[]
      outcome := .ok { strategy := .worklist, iterations := 0, blockVisits := 0 } }
  else
    let final := iterateUntil (fun s ↦ s.work.queue.isEmpty) (a.worklistStep g) limit
      { facts := facts.fit g a.initial, events := #[], work := a.initialWork g, iterations := 0 }
    { facts := final.facts
      events := final.events
      outcome :=
        if final.work.queue.isEmpty then
          .ok {
            strategy := .worklist
            iterations := final.iterations
            blockVisits := final.events.size }
        else .error { analysis := a.name, strategy := .worklist, limit := limit } }

/-- Solves from the given facts, which are fitted to the graph unless it is empty. -/
def solveFrom (a : Analysis L) (strategy : Strategy) (g : FlowGraph) (limit : Nat)
    (facts : Facts L) : Run L :=
  match strategy with
  | .naive => a.solveNaive g limit facts
  | .worklist => a.solveWorklist g limit facts

/-- Solves from the initial fact everywhere. -/
def run (a : Analysis L) (c : Config) (g : FlowGraph) : Run L :=
  a.solveFrom c.strategy g c.limit (Facts.new g a.initial)

end Analysis

end FlowFacts

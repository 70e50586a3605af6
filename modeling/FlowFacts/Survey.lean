import FlowFacts.ConstProp
import FlowFacts.Liveness
import FlowFacts.Reaching

/-!
All analyses of one graph under one configuration. Of several that do not converge, the first in the
order reaching definitions, liveness, constant propagation is reported.
-/

set_option autoImplicit false
set_option relaxedAutoImplicit false

namespace FlowFacts

structure Survey where
  definitions : DefTable
  reaching : Results BitSet
  liveness : Results BitSet
  constants : Results ConstState
  loops : LoopNest

namespace Survey

def run (g : FlowGraph) (c : Config) (fold : Bool) : Except NonConvergence Survey := do
  let definitions := DefTable.ofGraph g
  let reaching ← definitions.analysis.solve c g
  let liveness ← (Liveness.analysis g).solve c g
  let constants ← (ConstProp.analysis g fold).solve c g
  return {
    definitions := definitions
    reaching := reaching
    liveness := liveness
    constants := constants
    loops := g.loops }

end Survey

end FlowFacts

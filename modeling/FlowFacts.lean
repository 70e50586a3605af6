import FlowFacts.BitSet.Lemmas
import FlowFacts.Analysis.Log
import FlowFacts.Counting
import FlowFacts.FlowGraph.Dot
import FlowFacts.FlowGraph.Draft
import FlowFacts.Survey
import FlowFacts.Proofs.ExactArithmetic
import FlowFacts.Proofs.FiniteSets
import FlowFacts.Proofs.BuiltGraph
import FlowFacts.Proofs.BuildHistory
import FlowFacts.Proofs.ProgramPoints
import FlowFacts.Proofs.Equations
import FlowFacts.Proofs.BlockVisit
import FlowFacts.Proofs.Fixpoint
import FlowFacts.Proofs.MirroredRuns
import FlowFacts.Proofs.LimitedRuns
import FlowFacts.Proofs.WaitingBlocks
import FlowFacts.Proofs.FactInvariants
import FlowFacts.Proofs.GreatestSolution
import FlowFacts.Proofs.GenKill
import FlowFacts.Proofs.LiveVariables
import FlowFacts.Proofs.ReachingDefinitions
import FlowFacts.Proofs.ConstantSoundness
import FlowFacts.Proofs.Descent
import FlowFacts.Proofs.OverwritingConstants
import FlowFacts.Proofs.FirstSweep
import FlowFacts.Proofs.ConstantConvergence
import FlowFacts.Proofs.ConstantAgreement
import FlowFacts.Proofs.FoldedDefinitions
import FlowFacts.Proofs.GraphSearch
import FlowFacts.Proofs.PathDominance
import FlowFacts.Proofs.SearchOrder
import FlowFacts.Proofs.DominanceOrder
import FlowFacts.Proofs.LoopNesting
import FlowFacts.Proofs.SafeDrawings
import FlowFacts.Proofs.DeadStores
import FlowFacts.Proofs.AcyclicConvergence
import FlowFacts.Proofs.SetGrowth
import FlowFacts.Proofs.LoopRegions
import FlowFacts.Proofs.LoopTree
import FlowFacts.Proofs.UpstreamFacts
import FlowFacts.Proofs.DominatorTree
import FlowFacts.Proofs.RefinementRounds
import FlowFacts.Proofs.ConstantMonotonicity
import FlowFacts.Proofs.TransferLaws

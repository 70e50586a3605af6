import FlowFacts.Proofs.ConstantSoundness
import FlowFacts.Proofs.DefinedVariables
import FlowFacts.Proofs.FirstSweep

/-!
What converged runs of constant propagation agree on. Without folding, a variable is defined at a
point exactly if a literal was assigned to it, or to a variable that it was copied from, somewhere
on the way: no order of visits enters this, so all runs define the same variables. They may give
them different values, since a target that kept its constant remembers what came first; there is a
program on which the two solvers do, and on which with folding they do not even define the same
variables. With folding, constants that differ can only be those of variables that no execution has
assigned there. Where the first sweep finds the values that it needs, all runs have the same facts.
-/

set_option autoImplicit false
set_option relaxedAutoImplicit false

namespace FlowFacts

namespace ConstProp

variable {g : FlowGraph}

/-- Any two converged runs on a built graph: without folding they leave the same variables undefined
everywhere; with folding, constants that they give to a variable which an execution has assigned are
equal; and if the first sweep finds the values that it needs, they have the same facts. -/
theorem converged_runs_agree {draft : Draft} (hbuild : draft.build = .ok g) {fold : Bool}
    {c c' : Config} {r r' : Results ConstState} (hr : (analysis g fold).solve c g = .ok r)
    (hr' : (analysis g fold).solve c' g = .ok r') :
    (fold = false → ∀ q v, (r.at q).get v = .undefined ↔ (r'.at q).get v = .undefined) ∧
      (fold = true → ∀ q store, Reaches g q store → ∀ v, store v ≠ none → ∀ x y,
        (r.at q).get v = .constant x → (r'.at q).get v = .constant y → x = y) ∧
      (firstSweepFinds g fold = true → r.sameFacts r' = true) := by
  have hg := draft.wellFormed_of_build hbuild
  refine ⟨?_, ?_, fun hfirst ↦ ?_⟩
  · rintro rfl q v
    exact get_eq_undefined_iff hg hr hr'
  · rintro rfl q store hreach v hv x y hx hy
    have hsolves := Analysis.solves_of_solve_ok hg (respectful_analysis g true) hr
    have hsolves' := Analysis.solves_of_solve_ok hg (respectful_analysis g true) hr'
    exact constants_agree_of_reaches hg hsolves hsolves' hreach hv hx hy
  · -- The runs are those of the analysis that overwrites, which is lawful.
    rw [solve_eq hg hfirst] at hr hr'
    exact Analysis.sameFacts_of_solve_ok hg (lawful_overwriting g fold) hr hr'

/-- A copy in a loop whose source is assigned in the last block, and its sum with a variable that
nothing assigns. -/
def racing : Draft where
  blocks := #[
    #[.assign 2 (.binary .add (.var 1) (.var 3))],
    #[.assign 1 (.operand (.var 0))],
    #[.assign 1 (.operand (.const (.int 2)))],
    #[.assign 0 (.operand (.const (.int 1)))]]
  edges := #[(0, 1), (0, 3), (1, 3), (2, 1), (3, 0), (3, 2)]
  varNames := #["x", "y", "z", "w"]
  stray := none
  edges_nodup := by decide
  varNames_nodup := by decide

theorem outcome_naive_racing (fold : Bool) :
    ((analysis racing.toFlowGraph fold).run { strategy := .naive } racing.toFlowGraph).outcome =
      .ok ⟨.naive, 4, 16⟩ := by
  cases fold <;> decide +kernel

theorem outcome_worklist_racing (fold : Bool) :
    ((analysis racing.toFlowGraph fold).run {} racing.toFlowGraph).outcome =
      if fold then .ok ⟨.worklist, 21, 21⟩ else .ok ⟨.worklist, 17, 17⟩ := by
  cases fold <;> decide +kernel

/-- Both solvers converge on the program, and only one finds the copy to be a constant. With folding
the sum, unknown as long as the copy is a constant, is undefined for that solver alone. -/
theorem racing_runs_differ :
    racing.build = .ok racing.toFlowGraph ∧
      (∃ r r', (analysis racing.toFlowGraph false).solve { strategy := .naive }
          racing.toFlowGraph = .ok r ∧
        (analysis racing.toFlowGraph false).solve { strategy := .worklist }
          racing.toFlowGraph = .ok r' ∧
        (r.at (.blockStart 0)).get 1 = .constant (.int 1) ∧
        (r'.at (.blockStart 0)).get 1 = .notConstant ∧ r.sameFacts r' = false) ∧
      ∃ r r', (analysis racing.toFlowGraph true).solve { strategy := .naive }
          racing.toFlowGraph = .ok r ∧
        (analysis racing.toFlowGraph true).solve { strategy := .worklist }
          racing.toFlowGraph = .ok r' ∧
        (r.at (.blockEnd 0)).get 2 = .undefined ∧
        (r'.at (.blockEnd 0)).get 2 = .notConstant ∧ r.sameFacts r' = false := by
  refine ⟨rfl, ⟨_, _, Analysis.solve_eq_ok_iff.mpr ⟨_, outcome_naive_racing false, rfl⟩,
    Analysis.solve_eq_ok_iff.mpr ⟨_, outcome_worklist_racing false, rfl⟩, ?_⟩,
    _, _, Analysis.solve_eq_ok_iff.mpr ⟨_, outcome_naive_racing true, rfl⟩,
    Analysis.solve_eq_ok_iff.mpr ⟨_, outcome_worklist_racing true, rfl⟩, ?_⟩
  all_goals decide +kernel

/-- The program on which the values differ, where the same variables are defined, and the loop that
adds, where no constant is contradicted and the first sweep finds all values. -/
theorem converged_runs_agree_racing :
    (∃ r r', (analysis racing.toFlowGraph false).solve { strategy := .naive } racing.toFlowGraph =
        .ok r ∧
      (analysis racing.toFlowGraph false).solve {} racing.toFlowGraph = .ok r' ∧
      ∀ q v, (r.at q).get v = .undefined ↔ (r'.at q).get v = .undefined) ∧
    firstSweepFinds adding.toFlowGraph true = true ∧
      ∃ r r', (analysis adding.toFlowGraph true).solve { strategy := .naive } adding.toFlowGraph =
          .ok r ∧
        (analysis adding.toFlowGraph true).solve {} adding.toFlowGraph = .ok r' ∧
        (∀ q store, Reaches adding.toFlowGraph q store → ∀ v, store v ≠ none → ∀ x y,
          (r.at q).get v = .constant x → (r'.at q).get v = .constant y → x = y) ∧
        r.sameFacts r' = true := by
  have hfirst : firstSweepFinds adding.toFlowGraph true = true := by decide +kernel
  have hnaive : ((analysis adding.toFlowGraph true).run { strategy := .naive }
      adding.toFlowGraph).outcome = .ok ⟨.naive, 3, 9⟩ := by
    decide +kernel
  have hworklist : ((analysis adding.toFlowGraph true).run {} adding.toFlowGraph).outcome =
      .ok ⟨.worklist, 6, 6⟩ := by
    decide +kernel
  have hr := Analysis.solve_eq_ok_iff.mpr ⟨_, outcome_naive_racing false, rfl⟩
  have hr' := Analysis.solve_eq_ok_iff.mpr ⟨_, outcome_worklist_racing false, rfl⟩
  have ha := Analysis.solve_eq_ok_iff.mpr ⟨_, hnaive, rfl⟩
  have ha' := Analysis.solve_eq_ok_iff.mpr ⟨_, hworklist, rfl⟩
  have hracing : racing.build = .ok racing.toFlowGraph := rfl
  have hadding : adding.build = .ok adding.toFlowGraph := rfl
  obtain ⟨-, hconstants, hsame⟩ := converged_runs_agree hadding ha ha'
  exact ⟨⟨_, _, hr, hr', (converged_runs_agree hracing hr hr').1 rfl⟩, hfirst,
    _, _, ha, ha', hconstants rfl, hsame hfirst⟩

end ConstProp

end FlowFacts

import FlowFacts.Proofs.ConstantSoundness
import FlowFacts.Proofs.FirstSweep

/-!
Convergence of constant propagation. If the first sweep finds the values that it needs, both solvers
converge, with limits that are read off the graph. Otherwise a target that kept an old fact may turn
from one constant to another, and such changes can go round a loop for ever: there is a program,
every variable of which is initialised before it is read, on which neither solver stops changing its
facts.
-/

set_option autoImplicit false
set_option relaxedAutoImplicit false

namespace FlowFacts

namespace ConstProp

variable {g : FlowGraph} {fold : Bool}

/-! ### Limits -/

/-- On a built graph where the first sweep finds the values that it needs, both solvers converge as
soon as their limits allow for two falls of every assigned variable at both ends of every block, and
for a revisit of its successors after each. -/
theorem found_values_converge {draft : Draft} (hbuild : draft.build = .ok g)
    (hfirst : firstSweepFinds g fold = true) :
    (∀ limit, 4 * (assigned g).card * g.blockCount < limit →
      ∃ stats, ((analysis g fold).solveNaive g limit (.new g (analysis g fold).initial)).outcome =
        .ok stats) ∧
    ∀ limit, g.blockCount + 4 * (assigned g).card * g.edges.length ≤ limit →
      ∃ stats, ((analysis g fold).solveWorklist g limit
        (.new g (analysis g fold).initial)).outcome = .ok stats := by
  have hg := draft.wellFormed_of_build hbuild
  have hlawful := lawful_overwriting g fold
  have hclosed := closed_inputsUndefined g fold
  have hroom := finiteFall_room g fold
  have hinitial : 2 * room g (overwriting g fold).initial = 4 * (assigned g).card := by
    rw [overwriting_initial, room_initial]
    omega
  constructor
  · intro limit hlimit
    rw [← hinitial] at hlimit
    have hsame := solveFrom_eq hg hfirst .naive limit
    obtain ⟨stats, hok⟩ := Analysis.naive_converges hlawful hclosed hroom hlimit
    exact ⟨stats, (congrArg Run.outcome hsame).trans hok⟩
  · intro limit hlimit
    rw [← hinitial, ← (overwriting g fold).sum_fanOut hbuild] at hlimit
    have hsame := solveFrom_eq hg hfirst .worklist limit
    obtain ⟨stats, hok⟩ := Analysis.worklist_converges hlawful hclosed hroom hlimit
    exact ⟨stats, (congrArg Run.outcome hsame).trans hok⟩

/-- The loop that adds, with the smallest limits that the graph gives. -/
theorem found_values_converge_adding :
    let g := adding.toFlowGraph
    firstSweepFinds g true = true ∧
      (∃ stats, ((analysis g true).solveNaive g 37 (.new g (analysis g true).initial)).outcome =
        .ok stats) ∧
      ∃ stats, ((analysis g true).solveWorklist g 39 (.new g (analysis g true).initial)).outcome =
        .ok stats := by
  intro g
  have hfirst : firstSweepFinds g true = true := by decide +kernel
  have hbuild : adding.build = .ok g := rfl
  obtain ⟨hnaive, hworklist⟩ := found_values_converge hbuild hfirst
  exact ⟨hfirst, hnaive 37 (by decide), hworklist 39 (by decide)⟩

/-! ### A program without convergence -/

/-- What all states of the facts say, as plain lists. -/
def rows (facts : Facts ConstState) : List (List (List ConstFact)) :=
  [facts.blockIn, facts.blockOut, facts.instrIn, facts.instrOut].map fun states ↦
    states.toList.map fun s ↦ s.values.toList

theorem rows_inj {facts facts' : Facts ConstState} : rows facts = rows facts' ↔ facts = facts' := by
  have hinj : Function.Injective fun s : ConstState ↦ s.values.toList := by
    rintro ⟨s⟩ ⟨t⟩ h
    obtain rfl : s = t := Array.toList_inj.mp h
    rfl
  cases facts
  cases facts'
  simp [rows, hinj.list_map.eq_iff, Array.toList_inj]

/-- Plain lists take less to evaluate than arrays of states. -/
instance decidableEqFacts : DecidableEq (Facts ConstState) := fun _ _ ↦
  decidable_of_iff _ rows_inj

/-- A loop that passes values round three variables, numbered before the block that initialises
them. -/
def rotating : Draft where
  blocks := #[
    #[],
    #[.assign 0 (.operand (.const (.int 1))), .assign 0 (.operand (.var 1)),
      .assign 1 (.operand (.const (.int 2))), .assign 1 (.operand (.var 2)),
      .assign 2 (.operand (.var 0))],
    #[.assign 1 (.operand (.const (.int 1))), .assign 2 (.operand (.const (.int 1)))]]
  edges := #[(0, 2), (2, 1), (1, 1)]
  varNames := #["a", "b", "c"]
  stray := none
  edges_nodup := by decide
  varNames_nodup := by decide

/-- The graph of that program. -/
abbrev rotor : FlowGraph :=
  rotating.toFlowGraph

/-- The facts after each sweep over the rotating loop. -/
def orbit (fold : Bool) : Nat → Facts ConstState
  | 0 => .new rotor (.new 3)
  | k + 1 => ((analysis rotor fold).sweep rotor (orbit fold k)).1

/-- Four sweeps come back to where two were, every sweep changes something, and after the first one
only the loop changes. -/
theorem orbit_turns : ∀ fold, orbit fold 4 = orbit fold 2 ∧ ∀ k < 4,
    ((analysis rotor fold).sweep rotor (orbit fold k)).2 = true ∧
      (0 < k → (rotor.block? 1).map
        (fun loop ↦ (analysis rotor fold).visit 1 loop (orbit fold k)) =
          some (orbit fold (k + 1), true)) := by
  decide +kernel

theorem exists_orbit_succ (fold : Bool) {k : Nat} (hk : k < 4) :
    ∃ j, 0 < j ∧ j < 4 ∧ orbit fold (k + 1) = orbit fold j := by
  by_cases hlast : k + 1 < 4
  · exact ⟨k + 1, Nat.succ_pos k, hlast, rfl⟩
  · obtain rfl : k = 3 := by omega
    exact ⟨2, by decide, by decide, (orbit_turns fold).1⟩

theorem not_settled_rotating (fold : Bool) (limit : Nat) :
    ((analysis rotor fold).lastSweep rotor limit (.new rotor (.new 3))).settled = false := by
  refine (iterateUntil_invariant (P := fun s : Sweeping ConstState ↦
    s.settled = false ∧ ∃ k < 4, s.facts = orbit fold k) (fun s hs ↦ ?_) limit
    ⟨rfl, 0, by decide, Facts.fit_new _ _⟩).1
  obtain ⟨-, k, hk, hfacts⟩ := hs
  obtain ⟨j, -, hj, hnext⟩ := exists_orbit_succ fold hk
  have hchanged := ((orbit_turns fold).2 k hk).1
  simp only [Analysis.sweepStep, hfacts, hchanged, Bool.not_true, true_and]
  exact ⟨j, hj, hnext⟩

/-- The state of the worklist solver after some visits of the rotating loop. -/
def revisit (fold : Bool) : Nat → Revisiting ConstState
  | 0 =>
    { facts := .new rotor (.new 3)
      events := #[]
      work := (analysis rotor fold).initialWork rotor
      iterations := 0 }
  | k + 1 => (analysis rotor fold).worklistStep rotor (revisit fold k)

/-- Some block waits for the first three visits, and then the loop alone. -/
theorem revisit_turns : ∀ fold, (∀ k < 3, (revisit fold k).work.queue ≠ []) ∧
    (revisit fold 3).work.queue = [1] ∧ (revisit fold 3).facts = orbit fold 1 := by
  decide +kernel

/-- When the loop alone waits, its visit changes it and queues it again. -/
theorem worklistStep_loop {s : Revisiting ConstState} {k : Nat} (hsound : s.work.Sound)
    (hqueue : s.work.queue = [1]) (hk : k < 4) (hpos : 0 < k) (hfacts : s.facts = orbit fold k) :
    ((analysis rotor fold).worklistStep rotor s).work.queue = [1] ∧
      ((analysis rotor fold).worklistStep rotor s).facts = orbit fold (k + 1) := by
  obtain ⟨rest, hpop, hrest⟩ : ∃ rest, s.work.pop? = some (1, rest) ∧ rest.queue = [] := by
    simp [Worklist.pop?, hqueue]
  obtain ⟨loop, hloop, hvisit⟩ := Option.map_eq_some_iff.mp (((orbit_turns fold).2 k hk).2 hpos)
  have hsuccs : loop.succs = [1] := by
    rw [← FlowGraph.succs_of_block? hloop]
    decide
  have hpush : (rest.push 1).queue = [1] := by
    have hfree : ¬rest.queued.contains 1 = true := fun h ↦ by
      simpa [hrest] using (hsound.pop? hpop).mem_queued_iff.mp h
    rw [Worklist.push, if_neg hfree, hrest]
    rfl
  simp only [Analysis.worklistStep, hpop, hloop, hfacts, hvisit, if_true, and_true]
  rw [show (analysis _ fold).direction.targets loop = loop.succs from rfl, hsuccs]
  exact hpush

/-- The first three visits, and from then on visits of the loop alone. -/
def Revolving (fold : Bool) (s : Revisiting ConstState) : Prop :=
  (∃ k < 3, s = revisit fold k) ∨
    s.work.queue = [1] ∧ ∃ k, 0 < k ∧ k < 4 ∧ s.facts = orbit fold k

theorem revolving_worklistStep {s : Revisiting ConstState} (hsound : s.work.Sound)
    (h : Revolving fold s) : Revolving fold ((analysis rotor fold).worklistStep rotor s) := by
  rcases h with ⟨k, hk, rfl⟩ | ⟨hqueue, k, hpos, hk, hfacts⟩
  · by_cases hlast : k + 1 < 3
    · exact Or.inl ⟨k + 1, hlast, rfl⟩
    · obtain rfl : k = 2 := by omega
      obtain ⟨hqueue, hfacts⟩ := (revisit_turns fold).2
      exact Or.inr ⟨hqueue, 1, by decide, by decide, hfacts⟩
  · obtain ⟨hwaits, hvisited⟩ := worklistStep_loop hsound hqueue hk hpos hfacts
    obtain ⟨j, hjpos, hj, hnext⟩ := exists_orbit_succ fold hk
    exact Or.inr ⟨hwaits, j, hjpos, hj, hvisited.trans hnext⟩

/-- The worklist stays sound in all this, so the loop is never queued twice. -/
theorem revolving_lastRevisit (fold : Bool) (limit : Nat) :
    (analysis rotor fold).Progress rotor
        ((analysis rotor fold).lastRevisit rotor limit (.new rotor (.new 3))) ∧
      Revolving fold ((analysis rotor fold).lastRevisit rotor limit (.new rotor (.new 3))) := by
  have hg : rotor.WellFormed := Draft.wellFormed_of_build (d := rotating) rfl
  have ha := respectful_analysis rotor fold
  refine iterateUntil_invariant (P := fun s ↦ (analysis rotor fold).Progress rotor s ∧
    Revolving fold s) (fun s hs ↦ ?_) limit ⟨?_, Or.inl ⟨0, by decide, ?_⟩⟩
  · exact ⟨Analysis.progress_worklistStep hg ha hs.1, revolving_worklistStep hs.1.sound hs.2⟩
  · exact Analysis.progress_lastRevisit hg ha 0 _
  · exact congrArg (fun facts ↦ { revisit fold 0 with facts := facts }) (Facts.fit_new _ _)

theorem queue_rotating_ne_nil (fold : Bool) (limit : Nat) :
    ((analysis rotor fold).lastRevisit rotor limit (.new rotor (.new 3))).work.queue ≠ [] := by
  rcases (revolving_lastRevisit fold limit).2 with ⟨k, hk, hstate⟩ | ⟨hqueue, -⟩
  · rw [hstate]
    exact (revisit_turns fold).1 k hk
  · rw [hqueue]
    exact List.cons_ne_nil 1 []

/-- The program builds and, whatever the limit, no solver converges on it. -/
theorem rotating_never_converges :
    rotating.build = .ok rotor ∧
      ∀ (fold : Bool) (strategy : Strategy) (limit : Nat),
        ((analysis rotor fold).solveFrom strategy rotor limit
          (.new rotor (analysis rotor fold).initial)).outcome =
          .error ⟨"ConstantPropagation", strategy, limit⟩ := by
  refine ⟨rfl, fun fold strategy limit ↦ ?_⟩
  cases strategy with
  | naive => exact if_neg (Bool.eq_false_iff.mp (not_settled_rotating fold limit))
  | worklist => exact if_neg (mt List.isEmpty_iff.mp (queue_rotating_ne_nil fold limit))

end ConstProp

end FlowFacts

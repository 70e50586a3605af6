import FlowFacts.Proofs.FactInvariants

/-!
A lawful analysis has one answer. From the initial facts, all facts of a run stay above every
solution of the equations, because a visit computes from facts above a solution only facts above
it. Runs that stop at their limits keep this, so any sequence of them that ends converged ends in
the greatest solution, and any two converged runs agree.
-/

set_option autoImplicit false
set_option relaxedAutoImplicit false

namespace FlowFacts

variable {L : Type} [BEq L]

namespace Analysis

/-- A solution that every solution is below, point by point. -/
def GreatestSolution (a : Analysis L) (g : FlowGraph) (fact : Point → L) : Prop :=
  a.Solves g fact ∧ ∀ other : Point → L, a.Solves g other → ∀ q, a.Below (other q) (fact q)

/-- Calls of the solvers with their limits, one after the other on the same facts, converged or
not. -/
def drive (a : Analysis L) (g : FlowGraph) (calls : List (Strategy × Nat)) (facts : Facts L) :
    Facts L :=
  calls.foldl (fun facts call ↦ (a.solveFrom call.1 g call.2 facts).facts) facts

variable {a : Analysis L} {g : FlowGraph}

theorem holds_drive {P : Point → L → Prop} (hclosed : a.Closed g P)
    (calls : List (Strategy × Nat)) {start : Facts L} (h : start.Holds P) :
    (a.drive g calls start).Holds P := by
  induction calls generalizing start with
  | nil => exact h
  | cons call rest ih => exact ih (holds_solveFrom hclosed call.1 call.2 h)

theorem fits_drive (calls : List (Strategy × Nat)) {start : Facts L} (h : start.Fits g) :
    (a.drive g calls start).Fits g := by
  induction calls generalizing start with
  | nil => exact h
  | cons call rest ih => exact ih (a.fits_solveFrom_of_fits call.1 call.2 h)

theorem beq_of_getD_beq {items others : Array L} (initial : L) (hsize : items.size = others.size)
    (h : ∀ n < items.size, items.getD n initial == others.getD n initial) : items == others := by
  refine Array.isEqv_iff_rel.mpr ⟨hsize, fun n hn ↦ ?_⟩
  have hget := h n hn
  rwa [getD_of_getElem? (Array.getElem?_eq_getElem hn),
    getD_of_getElem? (Array.getElem?_eq_getElem (hsize ▸ hn))] at hget

/-- Results with equal facts at every point, for the same blocks and instructions. -/
theorem sameFacts_of_beq {r r' : Results L} (hfits : r.facts.Fits g) (hfits' : r'.facts.Fits g)
    (hinitial : r.initial = r'.initial) (h : ∀ q, r.at q == r'.at q) : r.sameFacts r' = true := by
  simp only [Results.sameFacts, Bool.and_eq_true]
  refine ⟨⟨⟨beq_of_getD_beq r.initial (hfits.size_blockIn.trans hfits'.size_blockIn.symm) ?_,
    beq_of_getD_beq r.initial (hfits.size_blockOut.trans hfits'.size_blockOut.symm) ?_⟩,
    beq_of_getD_beq r.initial (hfits.size_instrIn.trans hfits'.size_instrIn.symm) ?_⟩,
    beq_of_getD_beq r.initial (hfits.size_instrOut.trans hfits'.size_instrOut.symm) ?_⟩
  · intro b _
    have hq := h (.blockStart b)
    rwa [Results.at, Results.at, Results.blockIn, Results.blockIn, ← hinitial] at hq
  · intro b _
    have hq := h (.blockEnd b)
    rwa [Results.at, Results.at, Results.blockOut, Results.blockOut, ← hinitial] at hq
  · intro i _
    have hq := h (.before i)
    rwa [Results.at, Results.at, Results.instrIn, Results.instrIn, ← hinitial] at hq
  · intro i _
    have hq := h (.after i)
    rwa [Results.at, Results.at, Results.instrOut, Results.instrOut, ← hinitial] at hq

variable [EquivBEq L]

/-- To be above a solution spreads along the steps of facts. -/
theorem closed_above (ha : a.Lawful) {other : Point → L} (hother : a.Solves g other) :
    a.Closed g fun q x ↦ a.Below (other q) x := by
  refine ⟨fun q ↦ below_initial ha (other q), fun hx hy ↦ below_meet ha hx hy,
    fun hflow hx ↦ (hother.below_of_flow ha hflow).trans ha hx, fun {p q i x} hflow hx ↦ ?_⟩
  exact (ha.transfer_mono i hx).congr ha.toRespectful
    (BEq.symm (hother.beq_transfer_of_flow hflow)) BEq.rfl

theorem greatestSolution_of_ok (hg : g.WellFormed) (ha : a.Lawful) (calls : List (Strategy × Nat))
    {strategy : Strategy} {limit : Nat} {stats : Stats}
    (hok : (a.solveFrom strategy g limit (a.drive g calls (.new g a.initial))).outcome =
      .ok stats) :
    a.GreatestSolution g ((a.solveFrom strategy g limit
      (a.drive g calls (.new g a.initial))).facts.at a.initial) := by
  refine ⟨solves_solveFrom hg ha.toRespectful hok, fun other hother ↦ ?_⟩
  have hclosed := closed_above ha hother
  have hstart := holds_drive hclosed calls (holds_new hclosed)
  exact (holds_solveFrom hclosed strategy limit hstart).at hclosed.initial

theorem GreatestSolution.beq (ha : a.Lawful) {fact other : Point → L}
    (hfact : a.GreatestSolution g fact) (hother : a.GreatestSolution g other) (q : Point) :
    fact q == other q :=
  (hother.2 fact hfact.1 q).antisymm ha (hfact.2 other hother.1 q)

theorem greatestSolution_of_solve_ok (hg : g.WellFormed) (ha : a.Lawful) {c : Config}
    {r : Results L} (h : a.solve c g = .ok r) : a.GreatestSolution g r.at := by
  obtain ⟨stats, hok, rfl⟩ := solve_eq_ok_iff.mp h
  rw [Results.at_eq]
  exact greatestSolution_of_ok hg ha [] hok

theorem sameFacts_of_solve_ok (hg : g.WellFormed) (ha : a.Lawful) {c c' : Config}
    {r r' : Results L} (hr : a.solve c g = .ok r) (hr' : a.solve c' g = .ok r') :
    r.sameFacts r' = true := by
  have hgreatest := greatestSolution_of_solve_ok hg ha hr
  have hgreatest' := greatestSolution_of_solve_ok hg ha hr'
  obtain ⟨stats, -, rfl⟩ := solve_eq_ok_iff.mp hr
  obtain ⟨stats', -, rfl⟩ := solve_eq_ok_iff.mp hr'
  exact sameFacts_of_beq (a.fits_run c g) (a.fits_run c' g) rfl (hgreatest.beq ha hgreatest')

/-- On a built graph, a sequence of calls from the initial facts whose last call converges ends in
the greatest solution, recorded for exactly the points of the graph, and any two converged runs from
the initial facts have the same facts. -/
theorem converged_calls_greatest (ha : a.Lawful) {d : Draft} (hbuild : d.build = .ok g) :
    (∀ (calls : List (Strategy × Nat)) (strategy : Strategy) (limit : Nat) (stats : Stats),
      (a.solveFrom strategy g limit (a.drive g calls (.new g a.initial))).outcome = .ok stats →
      (a.solveFrom strategy g limit (a.drive g calls (.new g a.initial))).facts.Fits g ∧
        a.GreatestSolution g ((a.solveFrom strategy g limit
          (a.drive g calls (.new g a.initial))).facts.at a.initial)) ∧
    ∀ (c c' : Config) (r r' : Results L), a.solve c g = .ok r → a.solve c' g = .ok r' →
      r.sameFacts r' = true := by
  have hg := d.wellFormed_of_build hbuild
  constructor
  · intro calls strategy limit stats hok
    have hfits := fits_drive (a := a) calls (Facts.fits_new g a.initial)
    exact ⟨a.fits_solveFrom_of_fits strategy limit hfits, greatestSolution_of_ok hg ha calls hok⟩
  · intro c c' r r' hr hr'
    exact sameFacts_of_solve_ok hg ha hr hr'

/-- Counting from zero is lawful when sources combine by their larger number. -/
theorem lawful_counting {rule : Counting.Rule} (hmerge : rule.merge = .max)
    (hinitial : rule.initial = 0) (direction : Direction) :
    (Counting.analysis rule direction).Lawful := by
  refine { respectful_of_lawfulBEq _ with
    meet_comm := fun x y ↦ ?_, meet_assoc := fun x y z ↦ ?_, meet_self := fun x ↦ ?_,
    initial_meet := fun x ↦ ?_, transfer_mono := fun i x y hxy ↦ ?_ }
  all_goals
    simp only [Counting.analysis, hmerge, hinitial, Counting.Merge.apply, Nat.max, Counting.add,
      Below, beq_iff_eq] at *
    omega

/-- Two calls on the self loop that stop at their limits, and a third that converges. -/
theorem converged_calls_greatest_selfLoop :
    let a := Counting.analysis { cap := 3 } .backward
    let g := Draft.selfLoop.toFlowGraph
    let calls : List (Strategy × Nat) := [(.naive, 1), (.worklist, 2)]
    let start := a.drive g calls (.new g a.initial)
    (a.solveFrom .naive g 1 (.new g a.initial)).outcome = .error ⟨"CountBackward", .naive, 1⟩ ∧
      (a.solveFrom .worklist g 40 start).outcome = .ok ⟨.worklist, 11, 11⟩ ∧
      (a.solveFrom .worklist g 40 start).facts.Fits g ∧
      a.GreatestSolution g ((a.solveFrom .worklist g 40 start).facts.at a.initial) ∧
      ∃ r r', a.solve { strategy := .naive } g = .ok r ∧ a.solve {} g = .ok r' ∧
        r.sameFacts r' = true := by
  intro a g calls start
  have hbuild : Draft.selfLoop.build = .ok g := rfl
  have ha : a.Lawful := lawful_counting rfl rfl .backward
  obtain ⟨hgreatest, hsame⟩ := converged_calls_greatest ha hbuild
  have hok : (a.solveFrom .worklist g 40 start).outcome = .ok ⟨.worklist, 11, 11⟩ := by
    decide +kernel
  have hnaive : (a.run { strategy := .naive } g).outcome = .ok ⟨.naive, 5, 20⟩ := by
    decide +kernel
  have hworklist : (a.run {} g).outcome = .ok ⟨.worklist, 13, 13⟩ := by
    decide +kernel
  have hr := solve_eq_ok_iff.mpr ⟨_, hnaive, rfl⟩
  have hr' := solve_eq_ok_iff.mpr ⟨_, hworklist, rfl⟩
  obtain ⟨hfits, hsolution⟩ := hgreatest calls .worklist 40 _ hok
  exact ⟨by decide +kernel, hok, hfits, hsolution, _, _, hr, hr', hsame _ _ _ _ hr hr'⟩

end Analysis

end FlowFacts

import FlowFacts.Proofs.GreatestSolution
import FlowFacts.Proofs.OverwritingConstants

/-!
Constant propagation whose first sweep finds the values that it needs. Facts only fall from then on
if transfers overwrite, a fallen fact finds what a higher one found, and along instructions that
find their values keeping and overwriting are the same. So the two analyses run in lockstep: through
the first sweep by assumption, which is also how the worklist begins, and ever after because the
facts are steady. Hence constant propagation converges there, and both solvers agree.
-/

set_option autoImplicit false
set_option relaxedAutoImplicit false

namespace FlowFacts

/-- Steps that agree where an invariant holds run alike. -/
theorem iterateUntil_congr {σ : Type} {done : σ → Bool} {step step' : σ → σ} {P : σ → Prop}
    (hstep : ∀ s, P s → done s = false → step s = step' s ∧ P (step' s)) (limit : Nat) {s : σ}
    (hs : P s) : iterateUntil done step limit s = iterateUntil done step' limit s := by
  have hrelated : ∀ s t, s = t ∧ P s → done s = false → step s = step' t ∧ P (step s) := by
    rintro s t ⟨rfl, hs⟩ hdone
    obtain ⟨hsame, hnext⟩ := hstep s hs hdone
    exact ⟨hsame, hsame ▸ hnext⟩
  exact (iterateUntil_related (fun s t h ↦ congrArg done h.1) hrelated limit ⟨rfl, hs⟩).1

namespace Analysis

variable {L : Type} [BEq L] {a o : Analysis L} {g : FlowGraph}

/-! ### Analyses in lockstep -/

theorem worklistStep_congr (hdirection : a.direction = o.direction) {s : Revisiting L}
    (h : ∀ {b rest block}, s.work.pop? = some (b, rest) → g.block? b = some block →
      a.visit b block s.facts = o.visit b block s.facts) :
    a.worklistStep g s = o.worklistStep g s := by
  unfold worklistStep
  split
  · rfl
  · next b rest hpop =>
    split
    · rfl
    · next block hb => rw [h hpop hb, hdirection]

theorem foldl_sweepBlock_congr {P : Facts L → Prop}
    (hvisit : ∀ {b : Nat} {block : Block} {facts : Facts L}, g.block? b = some block → P facts →
      a.visit b block facts = o.visit b block facts ∧ P (o.visit b block facts).1)
    (blocks : List Nat) {state : Facts L × Bool} (h : P state.1) :
    blocks.foldl (a.sweepBlock g) state = blocks.foldl (o.sweepBlock g) state := by
  induction blocks generalizing state with
  | nil => rfl
  | cons b rest ih =>
    have hblock : a.sweepBlock g state b = o.sweepBlock g state b := by
      unfold sweepBlock
      split
      · rfl
      · next block hb => rw [(hvisit hb h).1]
    rw [List.foldl_cons, List.foldl_cons, hblock]
    exact ih (sweepBlock_preserves (P := P) (fun hb hfacts ↦ (hvisit hb hfacts).2) b h)

/-! ### The first sweep of a forward analysis -/

/-- The state of the first sweep after `k` blocks. -/
def swept (a : Analysis L) (g : FlowGraph) (k : Nat) : Facts L × Bool :=
  (List.range k).foldl (a.sweepBlock g) (.new g a.initial, false)

theorem swept_succ {k : Nat} {block : Block} (hk : g.block? k = some block) :
    a.swept g (k + 1) = ((a.visit k block (a.swept g k).1).1,
      (a.swept g k).2 || (a.visit k block (a.swept g k).1).2) := by
  rw [swept, List.range_succ, List.foldl_concat]
  exact sweepBlock_of_block? hk _

theorem fits_swept (a : Analysis L) (g : FlowGraph) (k : Nat) : (a.swept g k).1.Fits g :=
  List.foldlRecOn (motive := fun state : Facts L × Bool ↦ state.1.Fits g) (List.range k) _
    (Facts.fits_new g a.initial) fun _ hfits b _ ↦
      sweepBlock_preserves (P := fun facts ↦ facts.Fits g) (fun _ h ↦ fits_visit h _ _) b hfits

/-- What the visit of a block has recorded stays until the end of the sweep. -/
theorem threaded_swept (hg : g.WellFormed) {b k : Nat} {block : Block}
    (hb : g.block? b = some block) (hbk : b < k) (hk : k ≤ g.blockCount) :
    a.Threaded (a.swept g k).1 (a.direction.path block) (a.gather (a.swept g b).1 block)
      (a.passThrough block (a.swept g b).1) := by
  induction k, hbk using Nat.le_induction with
  | base =>
    rw [swept_succ hb]
    exact threaded_visit hg hb (a.fits_swept g b)
  | succ k hbk ih =>
    obtain ⟨next, hnext⟩ := FlowGraph.exists_block?_of_lt (Nat.lt_of_succ_le hk)
    rw [swept_succ hnext]
    exact (ih (Nat.le_of_succ_le hk)).congr fun i hi ↦
      visit_instr_of_ne hg hnext hb (Nat.ne_of_lt hbk) _ hi

end Analysis

namespace ConstProp

open ConstState

variable {g : FlowGraph} {fold : Bool}

/-! ### Instructions that find their values -/

/-- From the state on, every assignment among the instructions finds its value. -/
def FindsAlong (g : FlowGraph) (fold : Bool) : List Instr → ConstState → Prop
  | [], _ => True
  | i :: rest, s => s.finds g fold i = true ∧ FindsAlong g fold rest (s.overwrite g fold i)

section Path

variable {path : List Instr} {s t : ConstState}

theorem findsAlong_of_below (h : s.Below t) (ht : FindsAlong g fold path t) :
    FindsAlong g fold path s := by
  induction path generalizing s t with
  | nil => exact trivial
  | cons i rest ih => exact ⟨finds_of_below h ht.1, ih (overwrite_mono h) ht.2⟩

theorem thread_eq (hpath : ∀ i ∈ path, i ∈ g.instrs) (hs : s.InputsUndefined g)
    (h : FindsAlong g fold path s) (facts : Facts ConstState) :
    (analysis g fold).thread path s facts = (overwriting g fold).thread path s facts := by
  induction path generalizing s facts with
  | nil => rfl
  | cons i rest ih =>
    have htransfer : (analysis g fold).transfer i s = (overwriting g fold).transfer i s :=
      transfer_eq_overwrite h.1 hs
    rw [Analysis.thread, Analysis.thread, htransfer]
    exact ih (fun j hj ↦ hpath j (List.mem_cons_of_mem i hj))
      (inputsUndefined_overwrite (hpath i List.mem_cons_self) hs) h.2 _

/-- Recorded facts that find all values, found them along the path. -/
theorem findsAlong_of_threaded {facts : Facts ConstState} (hpath : ∀ i ∈ path, i ∈ g.instrs)
    (hs : s.InputsUndefined g) (h : (analysis g fold).Threaded facts path s t)
    (hfinds : ∀ i ∈ path, ∀ u, facts.instrIn[i.id]? = some u → u.finds g fold i = true) :
    FindsAlong g fold path s := by
  induction path generalizing s with
  | nil => exact trivial
  | cons i rest ih =>
    obtain ⟨henter, -, hrest⟩ := h
    have hi := hfinds i List.mem_cons_self s henter
    have htransfer : (analysis g fold).transfer i s = s.overwrite g fold i :=
      transfer_eq_overwrite hi hs
    rw [htransfer] at hrest
    exact ⟨hi, ih (fun j hj ↦ hpath j (List.mem_cons_of_mem i hj))
      (inputsUndefined_overwrite (hpath i List.mem_cons_self) hs) hrest
      fun j hj ↦ hfinds j (List.mem_cons_of_mem i hj)⟩

end Path

/-! ### Steady facts -/

/-- Facts of a run that overwrites, in which the first `k` blocks find all their values. -/
structure Steady (g : FlowGraph) (fold : Bool) (k : Nat) (facts : Facts ConstState) : Prop where
  falling : (overwriting g fold).Falling g (InputsUndefined g) facts
  finds : ∀ {b : Nat} {block : Block} {s : ConstState}, b < k → g.block? b = some block →
    facts.blockIn[b]? = some s → FindsAlong g fold block.instrs s

section Visit

variable {b k : Nat} {block : Block} {facts : Facts ConstState}

theorem Steady.inputsUndefined_gather (h : Steady g fold k facts) (hb : g.block? b = some block) :
    ((analysis g fold).gather facts block).InputsUndefined g :=
  Analysis.closed_gather (closed_inputsUndefined g fold) hb h.falling.good

/-- What comes to a block now is below what came to it before. -/
theorem Steady.findsAlong_gather (h : Steady g fold k facts) (hlt : b < k)
    (hb : g.block? b = some block) :
    FindsAlong g fold block.instrs ((analysis g fold).gather facts block) := by
  obtain ⟨s, hs⟩ := h.falling.descending.exists_blockEnter hb
  exact findsAlong_of_below (below_overwriting_iff.mp (h.falling.descending.enter hb hs))
    (h.finds hlt hb hs)

/-- The visit of a block that finds all its values is the same in both analyses and keeps the facts
steady. -/
theorem Steady.visit {k' : Nat} (h : Steady g fold k facts) (hb : g.block? b = some block)
    (hfinds : FindsAlong g fold block.instrs ((analysis g fold).gather facts block))
    (hk : ∀ c < k', c = b ∨ c < k) :
    (analysis g fold).visit b block facts = (overwriting g fold).visit b block facts ∧
      Steady g fold k' ((overwriting g fold).visit b block facts).1 := by
  have hpath : ∀ i ∈ block.instrs, i ∈ g.instrs := fun i hi ↦ FlowGraph.mem_instrs_of_block? hb hi
  have hthread := thread_eq hpath (h.inputsUndefined_gather hb) hfinds facts
  refine ⟨?_, Analysis.falling_visit (lawful_overwriting g fold) (closed_inputsUndefined g fold)
    h.falling hb, fun {c other s} hc hother hs ↦ ?_⟩
  · change (analysis g fold).thread ((analysis g fold).direction.path block) _ facts = _ at hthread
    rw [Analysis.visit_eq_visitAlong, Analysis.visit_eq_visitAlong, Analysis.visitAlong,
      Analysis.passThrough, hthread]
    rfl
  · change (((overwriting g fold).visit b block facts).1.blockEnter
      (overwriting g fold).direction)[c]? = some s at hs
    rw [Analysis.visit_blockEnter, Array.getElem?_setIfInBounds] at hs
    split_ifs at hs with hbc hlt
    · subst hbc
      obtain rfl : block = other := Option.some.inj (hb.symm.trans hother)
      obtain rfl := Option.some.inj hs
      exact hfinds
    · exact h.finds ((hk c hc).resolve_left fun hcb ↦ hbc hcb.symm) hother hs

theorem Steady.visit_all (h : Steady g fold g.blockCount facts) (hb : g.block? b = some block) :
    (analysis g fold).visit b block facts = (overwriting g fold).visit b block facts ∧
      Steady g fold g.blockCount ((overwriting g fold).visit b block facts).1 :=
  h.visit hb (h.findsAlong_gather (FlowGraph.lt_blockCount_of_block? hb) hb) fun _ hc ↦ Or.inr hc

end Visit

/-! ### The first sweep -/

/-- In the facts that the first sweep records, every assignment finds its value. -/
def firstSweepFinds (g : FlowGraph) (fold : Bool) : Bool :=
  let first := ((analysis g fold).sweep g (.new g (analysis g fold).initial)).1
  g.instrs.all fun i ↦ (first.instrIn.getD i.id (.new g.varCount)).finds g fold i

theorem findsAlong_swept (hg : g.WellFormed) (hfirst : firstSweepFinds g fold = true) {k : Nat}
    {block : Block} (hk : g.block? k = some block)
    (hinputs : ((analysis g fold).gather ((analysis g fold).swept g k).1 block).InputsUndefined g) :
    FindsAlong g fold block.instrs
      ((analysis g fold).gather ((analysis g fold).swept g k).1 block) := by
  have hpath : ∀ i ∈ block.instrs, i ∈ g.instrs := fun i hi ↦ FlowGraph.mem_instrs_of_block? hk hi
  have hthreaded := Analysis.threaded_swept (a := analysis g fold) hg hk
    (FlowGraph.lt_blockCount_of_block? hk) (Nat.le_refl _)
  refine findsAlong_of_threaded hpath hinputs hthreaded fun i hi u hu ↦ ?_
  have hfound := List.all_eq_true.mp hfirst i (hpath i hi)
  rwa [getD_of_getElem? (show ((analysis g fold).sweep g _).1.instrIn[i.id]? = some u from hu)]
    at hfound

theorem visit_swept (hg : g.WellFormed) (hfirst : firstSweepFinds g fold = true) {k : Nat}
    {block : Block} (hk : g.block? k = some block)
    (hsame : (analysis g fold).swept g k = (overwriting g fold).swept g k)
    (hsteady : Steady g fold k ((overwriting g fold).swept g k).1) :
    (analysis g fold).visit k block ((overwriting g fold).swept g k).1 =
        (overwriting g fold).visit k block ((overwriting g fold).swept g k).1 ∧
      Steady g fold (k + 1)
        ((overwriting g fold).visit k block ((overwriting g fold).swept g k).1).1 := by
  have hinputs := hsteady.inputsUndefined_gather hk
  rw [← hsame] at hinputs
  have hfinds := findsAlong_swept hg hfirst hk hinputs
  rw [hsame] at hfinds
  exact hsteady.visit hk hfinds fun c hc ↦ (Nat.lt_succ_iff_lt_or_eq.mp hc).symm

/-- Both analyses go through the first sweep alike. -/
theorem steady_swept (hg : g.WellFormed) (hfirst : firstSweepFinds g fold = true) {k : Nat}
    (hk : k ≤ g.blockCount) :
    (analysis g fold).swept g k = (overwriting g fold).swept g k ∧
      Steady g fold k ((overwriting g fold).swept g k).1 := by
  induction k with
  | zero =>
    exact ⟨rfl, Analysis.falling_new (lawful_overwriting g fold) (closed_inputsUndefined g fold),
      fun hb ↦ absurd hb (Nat.not_lt_zero _)⟩
  | succ k ih =>
    obtain ⟨hsame, hsteady⟩ := ih (Nat.le_of_succ_le hk)
    obtain ⟨block, hblock⟩ := FlowGraph.exists_block?_of_lt (Nat.lt_of_succ_le hk)
    obtain ⟨hvisit, hnext⟩ := visit_swept hg hfirst hblock hsame hsteady
    rw [Analysis.swept_succ hblock, Analysis.swept_succ hblock, hsame, hvisit]
    exact ⟨rfl, hnext⟩

/-! ### Whole runs -/

/-- The worklist solver is in its first round, or its facts are steady. -/
def Started (g : FlowGraph) (fold : Bool) (s : Revisiting ConstState) : Prop :=
  (∃ k added, k < g.blockCount ∧ s.facts = ((overwriting g fold).swept g k).1 ∧
    s.work.queue = List.range' k (g.blockCount - k) ++ added) ∨
  Steady g fold g.blockCount s.facts

theorem sweepStep_eq (hg : g.WellFormed) (hfirst : firstSweepFinds g fold = true)
    {s : Sweeping ConstState}
    (h : s.facts = .new g (.new g.varCount) ∨ Steady g fold g.blockCount s.facts) :
    (analysis g fold).sweepStep g s = (overwriting g fold).sweepStep g s ∧
      Steady g fold g.blockCount ((overwriting g fold).sweepStep g s).facts := by
  have hsweep : (analysis g fold).sweep g s.facts = (overwriting g fold).sweep g s.facts ∧
      Steady g fold g.blockCount ((overwriting g fold).sweep g s.facts).1 := by
    rcases h with h | h
    · rw [h]
      exact steady_swept hg hfirst (Nat.le_refl _)
    · exact ⟨Analysis.foldl_sweepBlock_congr (fun hb hfacts ↦ hfacts.visit_all hb) _ h,
        Analysis.sweep_preserves (fun hb hfacts ↦ (hfacts.visit_all hb).2) h⟩
  refine ⟨?_, hsweep.2⟩
  rw [Analysis.sweepStep, Analysis.sweepStep, hsweep.1]

theorem worklistStep_eq (hg : g.WellFormed) (hfirst : firstSweepFinds g fold = true)
    {s : Revisiting ConstState} (h : Started g fold s) :
    (analysis g fold).worklistStep g s = (overwriting g fold).worklistStep g s ∧
      Started g fold ((overwriting g fold).worklistStep g s) := by
  rcases h with ⟨k, added, hk, hfacts, hqueue⟩ | h
  · obtain ⟨block, hblock⟩ := FlowGraph.exists_block?_of_lt hk
    obtain ⟨hsame, hsteady⟩ := steady_swept hg hfirst hk.le
    obtain ⟨hvisit, hnext⟩ := visit_swept hg hfirst hblock hsame hsteady
    rw [← hfacts] at hvisit hnext
    have hremaining : g.blockCount - k = g.blockCount - (k + 1) + 1 := by omega
    rw [hremaining, List.range'_succ, List.cons_append] at hqueue
    obtain ⟨rest, hpop, hrest⟩ : ∃ rest, s.work.pop? = some (k, rest) ∧
        rest.queue = List.range' (k + 1) (g.blockCount - (k + 1)) ++ added := by
      simp [Worklist.pop?, hqueue]
    constructor
    · refine Analysis.worklistStep_congr (a := analysis g fold) (o := overwriting g fold) rfl
        fun {b rest' other} hb ho ↦ ?_
      obtain ⟨rfl, rfl⟩ : k = b ∧ rest = rest' := by simpa [hpop] using hb
      obtain rfl : block = other := Option.some.inj (hblock.symm.trans ho)
      exact hvisit
    · obtain ⟨hvisited, more, -, hmore⟩ :=
        Analysis.worklistStep_of_pop? (a := overwriting g fold) hpop hblock
      by_cases hlast : k + 1 < g.blockCount
      · refine Or.inl ⟨k + 1, added ++ more, hlast, ?_, ?_⟩
        · rw [hvisited, hfacts, Analysis.swept_succ hblock]
        · rw [hmore, hrest, List.append_assoc]
      · obtain hend : k + 1 = g.blockCount := by omega
        rw [← hvisited, hend] at hnext
        exact Or.inr hnext
  · refine ⟨Analysis.worklistStep_congr (a := analysis g fold) (o := overwriting g fold) rfl
      fun _ hb ↦ (h.visit_all hb).1, Or.inr ?_⟩
    exact Analysis.worklistStep_preserves (P := Steady g fold g.blockCount)
      (fun hb hfacts ↦ (hfacts.visit_all hb).2) s h

/-- If the first sweep finds all values, the whole run is that of the analysis that overwrites. -/
theorem solveFrom_eq (hg : g.WellFormed) (hfirst : firstSweepFinds g fold = true)
    (strategy : Strategy) (limit : Nat) :
    (analysis g fold).solveFrom strategy g limit (.new g (.new g.varCount)) =
      (overwriting g fold).solveFrom strategy g limit (.new g (.new g.varCount)) := by
  cases hempty : g.isEmpty with
  | true =>
    cases strategy <;>
      simp [Analysis.solveFrom, Analysis.solveNaive, Analysis.solveWorklist, hempty]
  | false =>
    have hfit := Facts.fit_new g (ConstState.new g.varCount)
    cases strategy with
    | naive =>
      have hrun : (analysis g fold).lastSweep g limit (.new g (.new g.varCount)) =
          (overwriting g fold).lastSweep g limit (.new g (.new g.varCount)) := by
        refine iterateUntil_congr (P := fun s : Sweeping ConstState ↦
          s.facts = .new g (.new g.varCount) ∨ Steady g fold g.blockCount s.facts)
          (fun s hs _ ↦ ?_) limit (Or.inl hfit)
        obtain ⟨hstep, hsteady⟩ := sweepStep_eq hg hfirst hs
        exact ⟨hstep, Or.inr hsteady⟩
      rw [Analysis.solveFrom, Analysis.solveFrom, Analysis.solveNaive, Analysis.solveNaive, hempty]
      rw [Analysis.lastSweep, Analysis.lastSweep] at hrun
      rw [hrun]
      rfl
    | worklist =>
      have hrun : (analysis g fold).lastRevisit g limit (.new g (.new g.varCount)) =
          (overwriting g fold).lastRevisit g limit (.new g (.new g.varCount)) := by
        refine iterateUntil_congr (P := Started g fold)
          (fun s hs _ ↦ worklistStep_eq hg hfirst hs) limit (Or.inl ⟨0, [], ?_, hfit, ?_⟩)
        · exact FlowGraph.isEmpty_eq_false_iff.mp hempty
        · simp [Analysis.initialWork, analysis, Direction.order, FlowGraph.blockIds,
            List.range_eq_range']
      rw [Analysis.solveFrom, Analysis.solveFrom, Analysis.solveWorklist, Analysis.solveWorklist,
        hempty]
      rw [Analysis.lastRevisit, Analysis.lastRevisit] at hrun
      rw [hrun]
      rfl

theorem solve_eq (hg : g.WellFormed) (hfirst : firstSweepFinds g fold = true) (c : Config) :
    (analysis g fold).solve c g = (overwriting g fold).solve c g := by
  have hrun : (analysis g fold).run c g = (overwriting g fold).run c g :=
    solveFrom_eq hg hfirst c.strategy c.limit
  rw [Analysis.solve, Analysis.solve, hrun]
  rfl

end ConstProp

end FlowFacts

import FlowFacts.Proofs.Descent
import FlowFacts.Proofs.LiveVariables
import FlowFacts.Proofs.ReachingDefinitions

/-!
Facts that are sets only grow. From the initial facts, a run of a lawful analysis lowers what it
has recorded, at instructions as at the ends of blocks: a block is never entered by more than when
it was last visited, and what its instructions record follows by monotone transfer. For sets joined
by union, to fall is to gain members. Only what instructions make can be gained, so both solvers
converge within limits that count it: the assignments of a graph for reaching definitions, the
variables that it reads for liveness.
-/

set_option autoImplicit false
set_option relaxedAutoImplicit false

namespace FlowFacts

namespace Analysis

variable {L : Type} [BEq L] {a : Analysis L} {g : FlowGraph}

/-! ### The visits of a run -/

/-- A run from `start` visits a block while it holds these facts: in the sweep after an unsettled
one, when the blocks before it in the order have been visited, or from the front of the queue. -/
def Visits (a : Analysis L) (g : FlowGraph) (start : Facts L) :
    Strategy → Nat → Facts L → Prop
  | .naive, b, facts =>
    ∃ sweeps before after, (a.lastSweep g sweeps start).settled = false ∧
      a.direction.order g = before ++ b :: after ∧
      facts = (before.foldl (a.sweepBlock g) ((a.lastSweep g sweeps start).facts, false)).1
  | .worklist, b, facts =>
    ∃ visits rest, (a.lastRevisit g visits start).work.pop? = some (b, rest) ∧
      facts = (a.lastRevisit g visits start).facts

/-- What every visit preserves holds before each of them. -/
theorem Visits.preserved {P : Facts L → Prop}
    (hvisit : ∀ {b : Nat} {block : Block} {facts : Facts L}, g.block? b = some block → P facts →
      P (a.visit b block facts).1) {start facts : Facts L} (hfit : P (start.fit g a.initial))
    {strategy : Strategy} {b : Nat} (h : a.Visits g start strategy b facts) : P facts := by
  cases strategy with
  | naive =>
    obtain ⟨sweeps, before, after, -, -, rfl⟩ := h
    have hsweeps : P (a.lastSweep g sweeps start).facts :=
      iterateUntil_invariant (P := fun s : Sweeping L ↦ P s.facts)
        (fun s hs ↦ sweep_preserves hvisit hs) sweeps hfit
    exact List.foldlRecOn (motive := fun state : Facts L × Bool ↦ P state.1) before _ hsweeps
      fun state hstate c _ ↦ sweepBlock_preserves hvisit c hstate
  | worklist =>
    obtain ⟨visits, rest, -, rfl⟩ := h
    exact iterateUntil_invariant (P := fun s : Revisiting L ↦ P s.facts)
      (fun s hs ↦ worklistStep_preserves hvisit s hs) visits hfit

/-! ### Records that only fall -/

/-- What is recorded along instructions is above what taking `x` through them records. -/
def AboveThread (a : Analysis L) (facts : Facts L) : List Instr → L → Prop
  | [], _ => True
  | i :: rest, x =>
    (∀ y, (facts.instrEnter a.direction)[i.id]? = some y → a.Below x y) ∧
      (∀ y, (facts.instrLeave a.direction)[i.id]? = some y → a.Below (a.transfer i x) y) ∧
      AboveThread a facts rest (a.transfer i x)

theorem AboveThread.congr {facts facts' : Facts L} {path : List Instr} {x : L}
    (hsame : ∀ i ∈ path,
      (facts'.instrEnter a.direction)[i.id]? = (facts.instrEnter a.direction)[i.id]? ∧
        (facts'.instrLeave a.direction)[i.id]? = (facts.instrLeave a.direction)[i.id]?)
    (h : a.AboveThread facts path x) : a.AboveThread facts' path x := by
  induction path generalizing x with
  | nil => trivial
  | cons i rest ih =>
    obtain ⟨henter, hleave, hrest⟩ := h
    obtain ⟨hsameEnter, hsameLeave⟩ := hsame i List.mem_cons_self
    refine ⟨?_, ?_, ih (fun j hj ↦ hsame j (List.mem_cons_of_mem i hj)) hrest⟩
    · rwa [hsameEnter]
    · rwa [hsameLeave]

theorem Threaded.aboveThread (ha : a.Lawful) {facts : Facts L} {path : List Instr} {x y : L}
    (h : a.Threaded facts path x y) : a.AboveThread facts path x := by
  induction path generalizing x with
  | nil => trivial
  | cons i rest ih =>
    obtain ⟨henter, hleave, hrest⟩ := h
    refine ⟨fun z hz ↦ ?_, fun z hz ↦ ?_, ih hrest⟩
    · obtain rfl := Option.some.inj (henter.symm.trans hz)
      exact ha.meet_self x
    · obtain rfl := Option.some.inj (hleave.symm.trans hz)
      exact ha.meet_self (a.transfer i x)

variable [EquivBEq L]

theorem AboveThread.mono (ha : a.Lawful) {facts : Facts L} {path : List Instr} {x x' : L}
    (h : a.AboveThread facts path x) (hx : a.Below x' x) : a.AboveThread facts path x' := by
  induction path generalizing x x' with
  | nil => trivial
  | cons i rest ih =>
    obtain ⟨henter, hleave, hrest⟩ := h
    have htransfer := ha.transfer_mono i hx
    exact ⟨fun y hy ↦ hx.trans ha (henter y hy), fun y hy ↦ htransfer.trans ha (hleave y hy),
      ih hrest htransfer⟩

/-- Taking a fact through instructions only lowers records that are above it. -/
theorem lower_thread (ha : a.Lawful) {path : List Instr} (hnodup : (path.map Instr.id).Nodup)
    {x : L} {facts : Facts L} (h : a.AboveThread facts path x) :
    a.Lower ((a.thread path x facts).2.instrEnter a.direction) (facts.instrEnter a.direction) ∧
      a.Lower ((a.thread path x facts).2.instrLeave a.direction)
        (facts.instrLeave a.direction) := by
  induction path generalizing x facts with
  | nil => exact ⟨lower_refl ha _, lower_refl ha _⟩
  | cons i rest ih =>
    rw [List.map_cons, List.nodup_cons] at hnodup
    obtain ⟨henter, hleave, hrest⟩ := h
    -- The records of `i` are written first and belong to no later instruction.
    have hwritten : a.AboveThread
        (facts.recordInstr a.direction i.id x (a.transfer i x)) rest (a.transfer i x) := by
      refine hrest.congr fun j hj ↦ ?_
      have hne : i.id ≠ j.id := fun heq ↦ hnodup.1 (heq ▸ List.mem_map_of_mem hj)
      rw [Facts.instrEnter_recordInstr, Facts.instrLeave_recordInstr]
      exact ⟨Array.getElem?_setIfInBounds_ne hne, Array.getElem?_setIfInBounds_ne hne⟩
    obtain ⟨henterRest, hleaveRest⟩ := ih hnodup.2 hwritten
    rw [Facts.instrEnter_recordInstr] at henterRest
    rw [Facts.instrLeave_recordInstr] at hleaveRest
    exact ⟨henterRest.trans ha (lower_setIfInBounds ha fun {y} ↦ henter y),
      hleaveRest.trans ha (lower_setIfInBounds ha fun {y} ↦ hleave y)⟩

theorem aboveThread_new (ha : a.Lawful) (g : FlowGraph) (path : List Instr) (x : L) :
    a.AboveThread (Facts.new g a.initial) path x := by
  have hnew : (Facts.new g a.initial).Holds fun _ x ↦ x = a.initial :=
    Facts.holds_new g fun _ ↦ rfl
  induction path generalizing x with
  | nil => trivial
  | cons i rest ih =>
    refine ⟨fun y hy ↦ ?_, fun y hy ↦ ?_, ih (a.transfer i x)⟩
    · rw [hnew.instrEnter hy]
      exact below_initial ha x
    · rw [hnew.instrLeave hy]
      exact below_initial ha (a.transfer i x)

/-- Facts that fall at every point when any block is visited. -/
structure Sinking (a : Analysis L) (g : FlowGraph) (facts : Facts L) : Prop
    extends a.Descending g facts where
  above : ∀ {b : Nat} {block : Block} {x : L}, g.block? b = some block →
    (facts.blockEnter a.direction)[b]? = some x → a.AboveThread facts (a.direction.path block) x

theorem sinking_new (ha : a.Lawful) (g : FlowGraph) :
    a.Sinking g (Facts.new g a.initial) :=
  ⟨descending_new ha g, fun _ _ ↦ aboveThread_new ha g _ _⟩

section Visit

variable {facts : Facts L} {b : Nat} {block : Block}

theorem sinking_visit (hg : g.WellFormed) (ha : a.Lawful) (h : a.Sinking g facts)
    (hb : g.block? b = some block) : a.Sinking g (a.visit b block facts).1 := by
  refine ⟨descending_visit ha h.toDescending hb, fun {c other x} hc hx ↦ ?_⟩
  rw [visit_blockEnter, Array.getElem?_setIfInBounds] at hx
  by_cases hcb : b = c
  · subst hcb
    obtain rfl : block = other := Option.some.inj (hb.symm.trans hc)
    rw [if_pos rfl] at hx
    split_ifs at hx
    obtain rfl := Option.some.inj hx
    exact (threaded_visit hg hb h.fits).aboveThread ha
  · rw [if_neg hcb] at hx
    exact (h.above hc hx).congr fun i hi ↦ visit_instr_of_ne hg hb hc (Ne.symm hcb) facts hi

/-- A visit lowers the fact at every point or leaves it. -/
theorem Sinking.below_at (hg : g.WellFormed) (ha : a.Lawful) (h : a.Sinking g facts)
    (hb : g.block? b = some block) (q : Point) :
    a.Below ((a.visit b block facts).1.at a.initial q) (facts.at a.initial q) := by
  have henter := h.lower_blockEnter ha hb
  have hleave := h.lower_blockLeave ha hb
  obtain ⟨x, hx⟩ := h.exists_blockEnter hb
  obtain ⟨henterInstr, hleaveInstr⟩ :
      a.Lower ((a.visit b block facts).1.instrEnter a.direction) (facts.instrEnter a.direction) ∧
        a.Lower ((a.visit b block facts).1.instrLeave a.direction)
          (facts.instrLeave a.direction) := by
    rw [visit_instrEnter, visit_instrLeave]
    exact lower_thread ha (a.direction.nodup_path hg hb) ((h.above hb hx).mono ha (h.enter hb hx))
  generalize a.direction = direction at henter hleave henterInstr hleaveInstr
  cases direction with
  | forward =>
    cases q with
    | blockStart c => exact henter.getD ha c a.initial
    | blockEnd c => exact hleave.getD ha c a.initial
    | before i => exact henterInstr.getD ha i a.initial
    | after i => exact hleaveInstr.getD ha i a.initial
  | backward =>
    cases q with
    | blockStart c => exact hleave.getD ha c a.initial
    | blockEnd c => exact henter.getD ha c a.initial
    | before i => exact hleaveInstr.getD ha i a.initial
    | after i => exact henterInstr.getD ha i a.initial

end Visit

/-- From the initial facts, every visit of a run lowers facts or leaves them. -/
theorem Visits.below_at (hg : g.WellFormed) (ha : a.Lawful) {strategy : Strategy} {b : Nat}
    {block : Block} {facts : Facts L} (h : a.Visits g (.new g a.initial) strategy b facts)
    (hb : g.block? b = some block) (q : Point) :
    a.Below ((a.visit b block facts).1.at a.initial q) (facts.at a.initial q) := by
  have hstart : a.Sinking g ((Facts.new g a.initial).fit g a.initial) := by
    rw [Facts.fit_new]
    exact sinking_new ha g
  have hsinking : a.Sinking g facts :=
    h.preserved (P := a.Sinking g) (fun hb hfacts ↦ sinking_visit hg ha hfacts hb) hstart
  exact hsinking.below_at hg ha hb q

end Analysis

/-! ### Sets in a support -/

namespace Analysis

variable {a : Analysis BitSet} {gen kill : Instr → Nat → Prop} {g : FlowGraph}
  {support : Finset Nat}

/-- How many members of a support a set lacks. -/
def lacking (support : Finset Nat) (s : BitSet) : Nat :=
  (support.filter (· ∉ s)).card

theorem GenKill.closed_subset (ha : a.GenKill gen kill)
    (hgen : ∀ i ∈ g.instrs, ∀ n, gen i n → n ∈ support) :
    a.Closed g fun _ s ↦ ∀ n ∈ s, n ∈ support := by
  refine ⟨fun _ n hn ↦ absurd hn (ha.notMem_initial n), fun hx hy n hn ↦ ?_,
    fun _ hx ↦ hx, fun {p q i x} hflow hx n hn ↦ ?_⟩
  · rw [ha.meet_eq, BitSet.mem_union] at hn
    exact hn.elim (hx n) (hy n)
  · rcases ha.mem_transfer.mp hn with hmade | ⟨hmem, -⟩
    · cases hflow with
      | execute hi => exact hgen i hi n hmade
    · exact hx n hmem

theorem GenKill.finiteFall_lacking (ha : a.GenKill gen kill) :
    a.FiniteFall (fun s ↦ ∀ n ∈ s, n ∈ support) (lacking support) := by
  have hsubset : ∀ {x y : BitSet}, a.Below x y →
      support.filter (· ∉ x) ⊆ support.filter (· ∉ y) := fun hxy ↦
    Finset.monotone_filter_right support fun n _ hn hy ↦ hn (ha.below_iff.mp hxy n hy)
  refine ⟨fun _ _ hxy ↦ Finset.card_le_card (hsubset hxy), fun {x y} hx _ hxy hne ↦ ?_⟩
  have hmore : ¬∀ n ∈ x, n ∈ y := fun hall ↦
    hne (BitSet.beq_iff_mem.mpr fun n ↦ ⟨hall n, ha.below_iff.mp hxy n⟩)
  obtain ⟨n, hnx, hny⟩ : ∃ n ∈ x, n ∉ y := by simpa using hmore
  refine Finset.card_lt_card ((Finset.ssubset_iff_of_subset (hsubset hxy)).mpr ⟨n, ?_, ?_⟩)
  · exact Finset.mem_filter.mpr ⟨hx n hnx, hny⟩
  · simp [hnx]

theorem GenKill.lacking_initial (ha : a.GenKill gen kill) :
    lacking support a.initial = support.card := by
  rw [lacking, Finset.filter_true_of_mem fun n _ ↦ ha.notMem_initial n]

/-- From the initial facts, both solvers converge within limits that allow for `size` gains at both
ends of every block and for a revisit of its targets after each, and every visit on the way keeps
the members of all facts. -/
structure GrowsWithin (a : Analysis BitSet) (g : FlowGraph) (size : Nat) : Prop where
  naive : ∀ limit, 2 * g.blockCount * size + 1 ≤ limit →
    ∃ stats, (a.solveNaive g limit (.new g a.initial)).outcome = .ok stats
  worklist : ∀ limit, g.blockCount + 2 * size * g.edges.length ≤ limit →
    ∃ stats, (a.solveWorklist g limit (.new g a.initial)).outcome = .ok stats
  grows : ∀ {strategy : Strategy} {b : Nat} {block : Block} {facts : Facts BitSet},
    a.Visits g (.new g a.initial) strategy b facts → g.block? b = some block →
    ∀ (q : Point) (n : Nat), n ∈ facts.at a.initial q →
      n ∈ (a.visit b block facts).1.at a.initial q

theorem GenKill.growsWithin (ha : a.GenKill gen kill) {draft : Draft}
    (hbuild : draft.build = .ok g) (hgen : ∀ i ∈ g.instrs, ∀ n, gen i n → n ∈ support) :
    a.GrowsWithin g support.card := by
  have hg := draft.wellFormed_of_build hbuild
  have hclosed := ha.closed_subset hgen
  have hfall : a.FiniteFall _ (lacking support) := ha.finiteFall_lacking
  refine ⟨fun limit hlimit ↦ ?_, fun limit hlimit ↦ ?_, fun hvisits hb q n hn ↦ ?_⟩
  · refine naive_converges ha.lawful hclosed hfall ?_
    rw [ha.lacking_initial, Nat.mul_right_comm]
    exact hlimit
  · refine worklist_converges ha.lawful hclosed hfall ?_
    rw [ha.lacking_initial, a.sum_fanOut hbuild]
    exact hlimit
  · exact ha.below_iff.mp (hvisits.below_at hg ha.lawful hb q) n hn

end Analysis

/-! ### Reaching definitions and liveness -/

/-- The variables that some instruction of a graph reads. -/
def FlowGraph.readVars (g : FlowGraph) : Finset Nat :=
  (g.instrs.flatMap Instr.reads).toFinset

theorem DefTable.size_ofGraph (g : FlowGraph) :
    (ofGraph g).size = g.instrs.countP Instr.isAssign := by
  have hlength := congrArg List.length (map_instr_ofGraph g)
  rw [List.length_map, Array.length_toList, List.length_filterMap_eq_countP] at hlength
  rw [size, hlength]
  exact List.countP_congr fun i _ ↦ by simp [Instr.isAssign]

theorem DefTable.growsWithin_analysis {g : FlowGraph} {draft : Draft}
    (hbuild : draft.build = .ok g) :
    (ofGraph g).analysis.GrowsWithin g (g.instrs.countP Instr.isAssign) := by
  have hg := draft.wellFormed_of_build hbuild
  rw [← size_ofGraph, ← Finset.card_range (ofGraph g).size]
  refine (genKill_analysis _).growsWithin hbuild fun i _ n hn ↦ ?_
  obtain ⟨d, hd, -⟩ := (mem_gen hg).mp hn
  obtain ⟨hlt, -⟩ := Array.getElem?_eq_some_iff.mp hd
  exact Finset.mem_range.mpr hlt

theorem Liveness.growsWithin_analysis {g : FlowGraph} {draft : Draft}
    (hbuild : draft.build = .ok g) : (analysis g).GrowsWithin g g.readVars.card := by
  refine (genKill_analysis g).growsWithin hbuild fun i hi v hv ↦ ?_
  rw [FlowGraph.readVars, List.mem_toFinset]
  exact List.mem_flatMap.mpr ⟨i, hi, Instr.mem_reads_iff.mpr hv⟩

namespace Analysis

/-- On a built graph, reaching definitions grow to their fixpoint within the number of assignments,
and live variables within the number of variables that are read. -/
theorem sets_grow_to_fixpoint {g : FlowGraph} {draft : Draft} (hbuild : draft.build = .ok g) :
    (DefTable.ofGraph g).analysis.GrowsWithin g (g.instrs.countP Instr.isAssign) ∧
      (Liveness.analysis g).GrowsWithin g g.readVars.card :=
  ⟨DefTable.growsWithin_analysis hbuild, Liveness.growsWithin_analysis hbuild⟩

/-- The self loop, with the smallest limits that its graph gives, and the second visit of the
looping block. -/
theorem sets_grow_to_fixpoint_selfLoop :
    let g := Draft.selfLoop.toFlowGraph
    let a := (DefTable.ofGraph g).analysis
    let l := Liveness.analysis g
    (∃ stats, (a.solveNaive g 17 (.new g a.initial)).outcome = .ok stats) ∧
      (∃ stats, (l.solveWorklist g 20 (.new g l.initial)).outcome = .ok stats) ∧
      ∃ facts block, l.Visits g (.new g l.initial) .naive 1 facts ∧ g.block? 1 = some block ∧
        1 ∈ facts.at l.initial (.blockStart 1) ∧
        1 ∈ (l.visit 1 block facts).1.at l.initial (.blockStart 1) := by
  intro g a l
  have hbuild : Draft.selfLoop.build = .ok g := rfl
  obtain ⟨hreaching, hlive⟩ := sets_grow_to_fixpoint hbuild
  have hsecond : l.Visits g (.new g l.initial) .naive 1
      ([3, 2].foldl (l.sweepBlock g) ((l.lastSweep g 1 (.new g l.initial)).facts, false)).1 :=
    ⟨1, [3, 2], [0], by decide +kernel, rfl, rfl⟩
  obtain ⟨block, hblock⟩ : ∃ block, g.block? 1 = some block := ⟨_, rfl⟩
  refine ⟨hreaching.naive 17 (by decide), hlive.worklist 20 (by decide), _, block, hsecond, hblock,
    ?_⟩
  have hmem : 1 ∈ ([3, 2].foldl (l.sweepBlock g)
      ((l.lastSweep g 1 (.new g l.initial)).facts, false)).1.at l.initial (.blockStart 1) := by
    decide +kernel
  exact ⟨hmem, hlive.grows hsecond hblock (.blockStart 1) 1 hmem⟩

end Analysis

end FlowFacts

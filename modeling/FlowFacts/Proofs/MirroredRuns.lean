import FlowFacts.Proofs.Fixpoint

/-!
Going backward is going forward through the mirrored graph. There blocks are numbered from the other
end, edges are turned round and blocks hold their instructions in reverse. What enters a block and
what it passes on are the same on both sides, so whole runs stay in step: sweep by sweep, and along
the worklist visit by visit with the same blocks waiting in the same order.
-/

set_option autoImplicit false
set_option relaxedAutoImplicit false

namespace FlowFacts

variable {L : Type}

/-! ### Mirrored graphs and runs -/

/-- The number of a block when `n` blocks are numbered from the other end. -/
def mirrored (n b : Nat) : Nat :=
  n - 1 - b

def Block.mirror (n : Nat) (block : Block) : Block where
  instrs := block.instrs.reverse
  succs := block.preds.map (mirrored n)
  preds := block.succs.map (mirrored n)

/-- Blocks are numbered from the other end and turned round; instructions keep their numbers. -/
def FlowGraph.mirror (g : FlowGraph) : FlowGraph where
  blocks := (g.blocks.toList.reverse.map (Block.mirror g.blockCount)).toArray
  varNames := g.varNames

/-- The same analysis in a direction. -/
def Analysis.along (a : Analysis L) (direction : Direction) : Analysis L :=
  { a with direction := direction }

/-- The start of a block shows what the end of its mirror image shows, and so do the sides of an
instruction. -/
structure Facts.Mirrors (forward backward : Facts L) : Prop where
  blockIn : forward.blockIn = backward.blockOut.reverse
  blockOut : forward.blockOut = backward.blockIn.reverse
  instrIn : forward.instrIn = backward.instrOut
  instrOut : forward.instrOut = backward.instrIn

def Event.mirror (n : Nat) (e : Event) : Event :=
  { e with block := e.block.map (mirrored n) }

/-- Two runs with mirrored facts, the same iterations up to the numbers of blocks, and the same
outcome. -/
structure Run.Mirrors (n : Nat) (forward backward : Run L) : Prop where
  facts : forward.facts.Mirrors backward.facts
  events : forward.events = backward.events.map (Event.mirror n)
  outcome : forward.outcome = backward.outcome

/-! ### Graphs -/

theorem mirrored_lt {n b : Nat} (h : b < n) : mirrored n b < n := by
  unfold mirrored
  omega

theorem mirrored_mirrored {n b : Nat} (h : b < n) : mirrored n (mirrored n b) = b := by
  unfold mirrored
  omega

theorem mirrored_inj {n b c : Nat} (hb : b < n) (hc : c < n) :
    mirrored n b = mirrored n c ↔ b = c := by
  constructor
  · intro h
    rw [← mirrored_mirrored hb, h, mirrored_mirrored hc]
  · exact congrArg (mirrored n)

theorem getElem?_reverse_mirrored {items : Array L} {n b : Nat} (hn : items.size = n)
    (hb : b < n) : items.reverse[mirrored n b]? = items[b]? := by
  refine Array.getElem?_reverse' ?_
  unfold mirrored
  omega

theorem reverse_setIfInBounds {items : Array L} {n b : Nat} (hn : items.size = n) (hb : b < n)
    (x : L) :
    (items.setIfInBounds b x).reverse = items.reverse.setIfInBounds (mirrored n b) x := by
  refine Array.ext_getElem? fun k ↦ ?_
  rcases Nat.lt_or_ge k n with hk | hk
  · -- An index of a reversed array is that of its mirror image.
    rw [← mirrored_mirrored hk, getElem?_reverse_mirrored (by simpa using hn) (mirrored_lt hk),
      Array.getElem?_setIfInBounds, Array.getElem?_setIfInBounds,
      getElem?_reverse_mirrored hn (mirrored_lt hk)]
    simp only [mirrored_inj hb (mirrored_lt hk), Array.size_reverse, hn, hb, mirrored_lt hb]
  · rw [Array.getElem?_eq_none (by simpa [hn] using hk),
      Array.getElem?_eq_none (by simpa [hn] using hk)]

namespace FlowGraph

variable {g : FlowGraph}

theorem blocks_mirror (g : FlowGraph) :
    g.mirror.blocks = (g.blocks.map (Block.mirror g.blockCount)).reverse := by
  simp [mirror, ← Array.toList_inj]

theorem blockCount_mirror (g : FlowGraph) : g.mirror.blockCount = g.blockCount := by
  simp [blockCount, mirror]

theorem isEmpty_mirror (g : FlowGraph) : g.mirror.isEmpty = g.isEmpty := by
  simp [isEmpty, mirror, Array.isEmpty]

theorem instrCount_mirror (g : FlowGraph) : g.mirror.instrCount = g.instrCount := by
  have hlength : List.length ∘ Block.instrs ∘ Block.mirror g.blockCount =
      List.length ∘ Block.instrs :=
    funext fun block ↦ List.length_reverse
  simp only [instrCount, instrs, mirror, List.length_flatMap, List.map_reverse, List.sum_reverse,
    List.map_map]
  exact congrArg (fun f ↦ (g.blocks.toList.map f).sum) hlength

theorem block?_mirror {b : Nat} {block : Block} (h : g.block? b = some block) :
    g.mirror.block? (mirrored g.blockCount b) = some (block.mirror g.blockCount) := by
  have hsize : (g.blocks.map (Block.mirror g.blockCount)).size = g.blockCount := Array.size_map
  have hblock : g.blocks[b]? = some block := h
  rw [block?, blocks_mirror, getElem?_reverse_mirrored hsize (lt_blockCount_of_block? h),
    Array.getElem?_map, hblock, Option.map_some]

theorem order_mirror (g : FlowGraph) :
    Direction.forward.order g.mirror =
      (Direction.backward.order g).map (mirrored g.blockCount) := by
  rw [Direction.order, Direction.order, blockIds, blockIds, blockCount_mirror]
  refine List.ext_getElem? fun k ↦ ?_
  rcases Nat.lt_or_ge k g.blockCount with hk | hk
  · have hmirrored : g.blockCount - 1 - k < g.blockCount := mirrored_lt hk
    rw [List.getElem?_map, List.getElem?_reverse (by simpa using hk), List.length_range,
      List.getElem?_range hk, List.getElem?_range hmirrored, Option.map_some]
    exact congrArg some (mirrored_mirrored hk).symm
  · simp [hk]

end FlowGraph

/-! ### Visits -/

section Visits

variable {g : FlowGraph} {facts facts' : Facts L}

theorem Facts.Mirrors.fits (h : facts'.Mirrors facts) (hfits : facts.Fits g) :
    facts'.Fits g.mirror := by
  obtain ⟨hbin, hbout, hin, hout⟩ := h
  refine ⟨?_, ?_, ?_, ?_⟩
  · rw [g.blockCount_mirror, ← hfits.size_blockOut, hbin, Array.size_reverse]
  · rw [g.blockCount_mirror, ← hfits.size_blockIn, hbout, Array.size_reverse]
  · rw [g.instrCount_mirror, ← hfits.size_instrOut, hin]
  · rw [g.instrCount_mirror, ← hfits.size_instrIn, hout]

theorem Facts.Mirrors.fit (h : facts'.Mirrors facts) (hfits : facts.Fits g) (initial : L) :
    (facts'.fit g.mirror initial).Mirrors (facts.fit g initial) := by
  rw [fit_of_fits (h.fits hfits), fit_of_fits hfits]
  exact h

theorem Facts.mirrors_new (g : FlowGraph) (initial : L) :
    (new g.mirror initial).Mirrors (new g initial) := by
  constructor <;> simp [new, g.blockCount_mirror, g.instrCount_mirror]

/-- What comes in at the start of a block comes in at the end of its mirror image. -/
theorem Facts.Mirrors.setBlockIn (h : facts'.Mirrors facts) (hfits : facts.Fits g) {b : Nat}
    (hb : b < g.blockCount) (x : L) :
    Facts.Mirrors
      { facts' with blockIn := facts'.blockIn.setIfInBounds (mirrored g.blockCount b) x }
      { facts with blockOut := facts.blockOut.setIfInBounds b x } where
  blockIn := by rw [reverse_setIfInBounds hfits.size_blockOut hb, h.blockIn]
  blockOut := h.blockOut
  instrIn := h.instrIn
  instrOut := h.instrOut

namespace Analysis

variable {a : Analysis L}

/-- The predecessors of the mirrored block are the mirrored successors of the block. -/
theorem meetPreds_mirror (hg : g.WellFormed) (h : facts'.Mirrors facts) (hfits : facts.Fits g)
    {b : Nat} {block : Block} (hblock : g.block? b = some block) :
    (a.along .forward).meetPreds facts' (block.mirror g.blockCount) =
      (a.along .backward).meetSuccs facts block := by
  have hsuccs : ∀ succ ∈ block.succs, succ < g.blockCount := fun succ hsucc ↦
    Direction.source_lt hg .backward hblock hsucc
  simp only [meetPreds, meetSuccs, Block.mirror, List.foldl_map]
  refine List.foldl_ext _ _ _ fun fact succ hsucc ↦ ?_
  rw [h.blockOut, getElem?_reverse_mirrored hfits.size_blockIn (hsuccs succ hsucc)]
  rfl

/-- The same path leads down and up to the same fact, with mirrored records. -/
theorem threadDown_mirror (h : facts'.Mirrors facts) (path : List Instr) (x : L) :
    ((a.along .forward).threadDown path x facts').1 =
        ((a.along .backward).threadUp path x facts).1 ∧
      ((a.along .forward).threadDown path x facts').2.Mirrors
        ((a.along .backward).threadUp path x facts).2 := by
  induction path generalizing x facts facts' with
  | nil => exact ⟨rfl, h⟩
  | cons i rest ih =>
    refine ih ?_ (a.transfer i x)
    exact {
      blockIn := h.blockIn
      blockOut := h.blockOut
      instrIn := congrArg (·.setIfInBounds i.id x) h.instrIn
      instrOut := congrArg (·.setIfInBounds i.id (a.transfer i x)) h.instrOut }

variable [BEq L]

/-- A forward visit of the mirrored block does on its start and end what a backward visit of the
block does on its end and start. -/
theorem visit_mirror (hg : g.WellFormed) (h : facts'.Mirrors facts) (hfits : facts.Fits g)
    {b : Nat} {block : Block} (hblock : g.block? b = some block) :
    ((a.along .forward).visit (mirrored g.blockCount b) (block.mirror g.blockCount)
        facts').1.Mirrors ((a.along .backward).visit b block facts).1 ∧
      ((a.along .forward).visit (mirrored g.blockCount b) (block.mirror g.blockCount) facts').2 =
        ((a.along .backward).visit b block facts).2 := by
  have hb := FlowGraph.lt_blockCount_of_block? hblock
  show ((a.along .forward).visitForward _ _ _).1.Mirrors
      ((a.along .backward).visitBackward _ _ _).1 ∧
    ((a.along .forward).visitForward _ _ _).2 = ((a.along .backward).visitBackward _ _ _).2
  have hinstrs : (block.mirror g.blockCount).instrs = block.instrs.reverse := rfl
  simp only [visitForward, visitBackward, meetPreds_mirror (a := a) hg h hfits hblock, hinstrs]
  generalize (a.along .backward).meetSuccs facts block = x
  obtain ⟨hcurrent, hrecords⟩ :=
    threadDown_mirror (a := a) (h.setBlockIn hfits hb x) block.instrs.reverse x
  have hstarts : ((a.along .backward).threadUp block.instrs.reverse x
      { facts with blockOut := facts.blockOut.setIfInBounds b x }).2.blockIn = facts.blockIn := by
    rw [threadUp_eq_thread rfl, blockIn_thread]
  generalize (a.along .forward).threadDown block.instrs.reverse x _ = down at hcurrent hrecords ⊢
  generalize (a.along .backward).threadUp block.instrs.reverse x _ = up
    at hcurrent hrecords hstarts ⊢
  have hsize : up.2.blockIn.size = g.blockCount := hstarts ▸ hfits.size_blockIn
  refine ⟨⟨hrecords.blockIn, ?_, hrecords.instrIn, hrecords.instrOut⟩, ?_⟩
  · rw [hcurrent, hrecords.blockOut, reverse_setIfInBounds hsize hb]
  · rw [hcurrent, h.blockIn, hrecords.blockOut, getElem?_reverse_mirrored hfits.size_blockOut hb,
      getElem?_reverse_mirrored hsize hb]

end Analysis

end Visits

/-! ### Waiting blocks -/

namespace Worklist

/-- The mirror images wait in the same order. -/
structure Mirrors (n : Nat) (w' w : Worklist) : Prop where
  queue_eq : w'.queue = w.queue.map (mirrored n)
  lt_of_mem : ∀ {b : Nat}, b ∈ w.queue → b < n
  contains_eq : ∀ {b : Nat}, b < n → w'.queued.contains (mirrored n b) = w.queued.contains b

variable {n : Nat} {w w' : Worklist}

theorem Mirrors.push (h : Mirrors n w' w) {b : Nat} (hb : b < n) :
    Mirrors n (w'.push (mirrored n b)) (w.push b) := by
  unfold Worklist.push
  rw [h.contains_eq hb]
  split_ifs
  · exact h
  · refine ⟨?_, fun {c} hc ↦ ?_, fun {c} hc ↦ ?_⟩
    · rw [h.queue_eq, List.map_append, List.map_singleton]
    · rcases List.mem_append.mp hc with hold | hnew
      · exact h.lt_of_mem hold
      · rwa [List.mem_singleton.mp hnew]
    · rw [BitSet.contains_insert, BitSet.contains_insert, h.contains_eq hc]
      simp only [mirrored_inj hc hb]

theorem Mirrors.foldl_push (h : Mirrors n w' w) {targets : List Nat}
    (htargets : ∀ b ∈ targets, b < n) :
    Mirrors n ((targets.map (mirrored n)).foldl Worklist.push w')
      (targets.foldl Worklist.push w) := by
  induction targets generalizing w w' with
  | nil => exact h
  | cons b rest ih =>
    rw [List.forall_mem_cons] at htargets
    exact ih (h.push htargets.1) htargets.2

theorem Mirrors.pop?_eq_none (h : Mirrors n w' w) (hpop : w.pop? = none) : w'.pop? = none := by
  simp only [Worklist.pop?, h.queue_eq, queue_of_pop?_eq_none hpop, List.map_nil]

theorem Mirrors.pop? (h : Mirrors n w' w) {b : Nat} {rest : Worklist}
    (hpop : w.pop? = some (b, rest)) :
    b < n ∧ ∃ rest', w'.pop? = some (mirrored n b, rest') ∧ Mirrors n rest' rest := by
  have hqueue := queue_of_pop? hpop
  have hb : b < n := h.lt_of_mem (hqueue ▸ List.mem_cons_self)
  have hrest : rest = ⟨rest.queue, w.queued.erase b⟩ := by
    simp only [Worklist.pop?, hqueue, Option.some.injEq, Prod.mk.injEq, true_and] at hpop
    exact hpop.symm
  have hqueue' : w'.queue = mirrored n b :: rest.queue.map (mirrored n) := by
    rw [h.queue_eq, hqueue, List.map_cons]
  refine ⟨hb, ⟨rest.queue.map (mirrored n), w'.queued.erase (mirrored n b)⟩, ?_, rfl,
    fun {c} hc ↦ h.lt_of_mem (hqueue ▸ List.mem_cons_of_mem b hc), fun {c} hc ↦ ?_⟩
  · simp only [Worklist.pop?, hqueue']
  · rw [hrest, BitSet.contains_erase, BitSet.contains_erase, h.contains_eq hc]
    simp only [mirrored_inj hc hb]

end Worklist

namespace Analysis

variable {a : Analysis L} {g : FlowGraph}

theorem initialWork_mirror (a : Analysis L) (g : FlowGraph) :
    Worklist.Mirrors g.blockCount ((a.along .forward).initialWork g.mirror)
      ((a.along .backward).initialWork g) := by
  refine ⟨g.order_mirror, fun {b} hb ↦ ?_, fun {b} hb ↦ ?_⟩
  · have hmem : b ∈ Direction.backward.order g := hb
    exact mem_order.mp hmem
  · rw [initialWork, initialWork, BitSet.contains_full, BitSet.contains_full, g.blockCount_mirror,
      decide_eq_true hb, decide_eq_true (mirrored_lt hb)]

/-! ### Runs -/

variable [BEq L]

theorem foldl_sweepBlock_mirror (hg : g.WellFormed) {blocks : List Nat}
    (hblocks : ∀ b ∈ blocks, b < g.blockCount) {facts facts' : Facts L} {changed : Bool}
    (h : facts'.Mirrors facts) (hfits : facts.Fits g) :
    let forward := (blocks.map (mirrored g.blockCount)).foldl
      ((a.along .forward).sweepBlock g.mirror) (facts', changed)
    let backward := blocks.foldl ((a.along .backward).sweepBlock g) (facts, changed)
    forward.1.Mirrors backward.1 ∧ backward.1.Fits g ∧ forward.2 = backward.2 := by
  induction blocks generalizing facts facts' changed with
  | nil => exact ⟨h, hfits, rfl⟩
  | cons b rest ih =>
    rw [List.forall_mem_cons] at hblocks
    obtain ⟨block, hblock⟩ := FlowGraph.exists_block?_of_lt hblocks.1
    obtain ⟨hvisit, hchanged⟩ := visit_mirror (a := a) hg h hfits hblock
    have hforward : (a.along .forward).sweepBlock g.mirror (facts', changed)
        (mirrored g.blockCount b) =
          (((a.along .forward).visit (mirrored g.blockCount b) (block.mirror g.blockCount)
            facts').1, changed || ((a.along .backward).visit b block facts).2) := by
      rw [← hchanged, sweepBlock, FlowGraph.block?_mirror hblock]
    have hbackward : (a.along .backward).sweepBlock g (facts, changed) b =
        (((a.along .backward).visit b block facts).1,
          changed || ((a.along .backward).visit b block facts).2) := by
      rw [sweepBlock, hblock]
    simp only [List.map_cons, List.foldl_cons, hforward, hbackward]
    exact ih hblocks.2 hvisit (fits_visit hfits b block)

theorem sweep_mirror (hg : g.WellFormed) {facts facts' : Facts L} (h : facts'.Mirrors facts)
    (hfits : facts.Fits g) :
    ((a.along .forward).sweep g.mirror facts').1.Mirrors ((a.along .backward).sweep g facts).1 ∧
      ((a.along .backward).sweep g facts).1.Fits g ∧
      ((a.along .forward).sweep g.mirror facts').2 = ((a.along .backward).sweep g facts).2 := by
  have horder : (a.along .forward).direction.order g.mirror =
      ((a.along .backward).direction.order g).map (mirrored g.blockCount) := g.order_mirror
  rw [sweep, sweep, horder]
  exact foldl_sweepBlock_mirror hg (fun _ ↦ mem_order.mp) h hfits

/-- Sweeps in step. The facts must fit for a place in them to have a mirror image. -/
structure SweepsMirrored (g : FlowGraph) (forward backward : Sweeping L) : Prop where
  facts : forward.facts.Mirrors backward.facts
  fits : backward.facts.Fits g
  events : forward.events = backward.events.map (Event.mirror g.blockCount)
  settled : forward.settled = backward.settled

theorem sweepStep_mirror (hg : g.WellFormed) {s' s : Sweeping L} (h : SweepsMirrored g s' s) :
    SweepsMirrored g ((a.along .forward).sweepStep g.mirror s')
      ((a.along .backward).sweepStep g s) := by
  obtain ⟨hfacts, hfits, hchanged⟩ := sweep_mirror (a := a) hg h.facts h.fits
  refine ⟨hfacts, hfits, ?_, congrArg not hchanged⟩
  simp only [sweepStep, h.events, hchanged, Array.size_map, Array.map_push]
  rfl

theorem solveNaive_mirror (hg : g.WellFormed) (limit : Nat) {start start' : Facts L}
    (h : start'.Mirrors start) (hfits : start.Fits g) :
    ((a.along .forward).solveNaive g.mirror limit start').Mirrors g.blockCount
      ((a.along .backward).solveNaive g limit start) := by
  rw [solveNaive, solveNaive, g.isEmpty_mirror]
  split_ifs
  · exact ⟨h, Array.map_empty.symm, rfl⟩
  · have hstart : SweepsMirrored g
        { facts := start'.fit g.mirror (a.along .forward).initial, events := #[],
          settled := false }
        { facts := start.fit g (a.along .backward).initial, events := #[], settled := false } :=
      ⟨h.fit hfits a.initial, start.fits_fit g a.initial, Array.map_empty.symm, rfl⟩
    have hfinal := iterateUntil_related (fun _ _ hs ↦ hs.settled)
      (fun _ _ hs _ ↦ sweepStep_mirror (a := a) hg hs) limit hstart
    have hsize := congrArg Array.size hfinal.events
    rw [Array.size_map] at hsize
    refine ⟨hfinal.facts, hfinal.events, ?_⟩
    simp only [hfinal.settled, hsize, g.blockCount_mirror]
    rfl

/-- Visits from the worklist in step. -/
structure RevisitsMirrored (g : FlowGraph) (forward backward : Revisiting L) : Prop where
  facts : forward.facts.Mirrors backward.facts
  fits : backward.facts.Fits g
  events : forward.events = backward.events.map (Event.mirror g.blockCount)
  work : Worklist.Mirrors g.blockCount forward.work backward.work
  iterations : forward.iterations = backward.iterations

theorem worklistStep_mirror (hg : g.WellFormed) {s' s : Revisiting L}
    (h : RevisitsMirrored g s' s) :
    RevisitsMirrored g ((a.along .forward).worklistStep g.mirror s')
      ((a.along .backward).worklistStep g s) := by
  cases hpop : s.work.pop? with
  | none =>
    simp only [worklistStep, hpop, h.work.pop?_eq_none hpop]
    exact h
  | some popped =>
    obtain ⟨b, rest⟩ := popped
    obtain ⟨hb, rest', hpop', hrest⟩ := h.work.pop? hpop
    obtain ⟨block, hblock⟩ := FlowGraph.exists_block?_of_lt hb
    obtain ⟨hvisit, hchanged⟩ := visit_mirror (a := a) hg h.facts h.fits hblock
    have htargets : ∀ c ∈ block.preds, c < g.blockCount := fun c hc ↦
      Direction.source_lt hg .forward hblock hc
    simp only [worklistStep, hpop, hpop', hblock, FlowGraph.block?_mirror hblock, hchanged,
      h.iterations, h.events]
    refine ⟨hvisit, fits_visit h.fits b block, ?_, ?_, rfl⟩
    · rw [Array.map_push]
      rfl
    · dsimp only
      split_ifs
      · exact hrest.foldl_push htargets
      · exact hrest

theorem solveWorklist_mirror (hg : g.WellFormed) (limit : Nat) {start start' : Facts L}
    (h : start'.Mirrors start) (hfits : start.Fits g) :
    ((a.along .forward).solveWorklist g.mirror limit start').Mirrors g.blockCount
      ((a.along .backward).solveWorklist g limit start) := by
  rw [solveWorklist, solveWorklist, g.isEmpty_mirror]
  split_ifs
  · exact ⟨h, Array.map_empty.symm, rfl⟩
  · have hstart : RevisitsMirrored g
        { facts := start'.fit g.mirror (a.along .forward).initial, events := #[],
          work := (a.along .forward).initialWork g.mirror, iterations := 0 }
        { facts := start.fit g (a.along .backward).initial, events := #[],
          work := (a.along .backward).initialWork g, iterations := 0 } :=
      ⟨h.fit hfits a.initial, start.fits_fit g a.initial, Array.map_empty.symm,
        a.initialWork_mirror g, rfl⟩
    have hdone : ∀ s' s : Revisiting L, RevisitsMirrored g s' s →
        s'.work.queue.isEmpty = s.work.queue.isEmpty := fun s' s hs ↦ by
      rw [hs.work.queue_eq, List.isEmpty_map]
    have hfinal := iterateUntil_related hdone
      (fun _ _ hs _ ↦ worklistStep_mirror (a := a) hg hs) limit hstart
    have hsize := congrArg Array.size hfinal.events
    rw [Array.size_map] at hsize
    refine ⟨hfinal.facts, hfinal.events, ?_⟩
    simp only [hdone _ _ hfinal, hsize, hfinal.iterations]
    rfl

/-- On a built graph, a backward run of either solver from fitted facts and the forward run of the
same functions on the mirrored graph from the mirrored facts have the same outcome and counts, and
their facts and iterations are mirror images. -/
theorem backward_run_mirrors_forward (a : Analysis L) {d : Draft} (hbuild : d.build = .ok g)
    (strategy : Strategy) (limit : Nat) {start start' : Facts L} (hfits : start.Fits g)
    (hstart : start'.Mirrors start) :
    ((a.along .forward).solveFrom strategy g.mirror limit start').Mirrors g.blockCount
      ((a.along .backward).solveFrom strategy g limit start) := by
  have hg := d.wellFormed_of_build hbuild
  cases strategy with
  | naive => exact solveNaive_mirror hg limit hstart hfits
  | worklist => exact solveWorklist_mirror hg limit hstart hfits

/-- Counting over a self loop, stopped by the limit on the way. -/
theorem backward_run_mirrors_forward_selfLoop :
    let a := Counting.analysis { cap := 3 } .backward
    let g := Draft.selfLoop.toFlowGraph
    let forward := (a.along .forward).solveFrom .worklist g.mirror 7 (.new g.mirror 0)
    let backward := (a.along .backward).solveFrom .worklist g 7 (.new g 0)
    forward.Mirrors 4 backward ∧
      backward.outcome = .error ⟨"CountBackward", .worklist, 7⟩ ∧
      backward.facts.blockIn = #[3, 2, 0, 2] ∧
      forward.facts.blockOut = #[2, 0, 2, 3] := by
  intro a g forward backward
  have hbuild : Draft.selfLoop.build = .ok g := rfl
  refine ⟨backward_run_mirrors_forward a hbuild .worklist 7 (Facts.fits_new g 0)
    (Facts.mirrors_new g 0), ?_, ?_, ?_⟩
  · decide +kernel
  · decide +kernel
  · decide +kernel

end Analysis

end FlowFacts

import Mathlib.Data.List.Perm.Subperm
import FlowFacts.Proofs.LimitedRuns

/-!
The queue of the worklist solver. At the start of every iteration it holds each block at most once,
it holds the same blocks as its set, and all of them are blocks of the graph. So no iteration is
spent on a stranger, and the queue is never longer than the graph. The facts keep the size of the
graph, so that a visit finds all that it reads or replaces: the same visit with checked places has
the same result. No law of the analysis enters.
-/

set_option autoImplicit false
set_option relaxedAutoImplicit false

namespace FlowFacts

variable {L : Type}

namespace Facts

/-- Replaces the facts around an instruction, if there is a place for both. -/
def recordInstr? (facts : Facts L) (direction : Direction) (i : Nat) (entering leaving : L) :
    Option (Facts L) :=
  if i < facts.instrIn.size ∧ i < facts.instrOut.size then
    some (facts.recordInstr direction i entering leaving)
  else none

/-- Replaces the facts at the ends of a block, if there is a place for both. -/
def recordBlock? (facts : Facts L) (direction : Direction) (b : Nat) (entering leaving : L) :
    Option (Facts L) :=
  if b < facts.blockIn.size ∧ b < facts.blockOut.size then
    some (facts.recordBlock direction b entering leaving)
  else none

variable {facts : Facts L} {g : FlowGraph}

theorem Fits.recordInstr? (hfits : facts.Fits g) {i : Nat} (hi : i < g.instrCount)
    (direction : Direction) (x y : L) :
    facts.recordInstr? direction i x y = some (facts.recordInstr direction i x y) :=
  if_pos ⟨hfits.size_instrIn ▸ hi, hfits.size_instrOut ▸ hi⟩

theorem Fits.recordBlock? (hfits : facts.Fits g) {b : Nat} (hb : b < g.blockCount)
    (direction : Direction) (x y : L) :
    facts.recordBlock? direction b x y = some (facts.recordBlock direction b x y) :=
  if_pos ⟨hfits.size_blockIn ▸ hb, hfits.size_blockOut ▸ hb⟩

end Facts

namespace Analysis

variable {a : Analysis L} {g : FlowGraph} {start : Facts L}

/-! ### Visits with checked places -/

/-- What enters a block, if facts are recorded for all of its sources. -/
def gather? (a : Analysis L) (facts : Facts L) (block : Block) : Option L :=
  (a.direction.sources block).foldlM
    (fun fact source ↦ (facts.blockLeave a.direction)[source]?.map (a.meet fact)) a.initial

/-- Takes a fact through instructions, if there is a place to record it around each. -/
def thread? (a : Analysis L) : List Instr → L → Facts L → Option (L × Facts L)
  | [], fact, facts => some (fact, facts)
  | i :: rest, fact, facts => do
    let next := a.transfer i fact
    let facts ← facts.recordInstr? a.direction i.id fact next
    thread? a rest next facts

/-- Recomputes one block, if every place that it reads or replaces exists. -/
def visit? [BEq L] (a : Analysis L) (b : Nat) (block : Block) (facts : Facts L) :
    Option (Facts L × Bool) := do
  let entering ← a.gather? facts block
  let (leaving, facts) ← a.thread? (a.direction.path block) entering facts
  let entered ← (facts.blockEnter a.direction)[b]?
  let left ← (facts.blockLeave a.direction)[b]?
  let facts ← facts.recordBlock? a.direction b entering leaving
  return (facts, !(entering == entered && leaving == left))

theorem gather?_eq_some {facts : Facts L} {block : Block}
    (h : ∀ s ∈ a.direction.sources block, s < (facts.blockLeave a.direction).size) :
    a.gather? facts block = some (a.gather facts block) := by
  unfold gather? gather
  generalize a.initial = fact
  generalize a.direction.sources block = sources at h
  induction sources generalizing fact with
  | nil => rfl
  | cons s rest ih =>
    obtain ⟨hs, hrest⟩ := List.forall_mem_cons.mp h
    have hleave := Array.getElem?_eq_getElem hs
    rw [List.foldlM_cons, List.foldl_cons, hleave]
    exact ih _ hrest

theorem thread?_eq_some {path : List Instr} (hids : ∀ i ∈ path, i.id < g.instrCount) (x : L)
    {facts : Facts L} (hfits : facts.Fits g) :
    a.thread? path x facts = some (a.thread path x facts) := by
  induction path generalizing x facts with
  | nil => rfl
  | cons i rest ih =>
    obtain ⟨hi, hrest⟩ := List.forall_mem_cons.mp hids
    rw [thread?, hfits.recordInstr? hi]
    exact ih hrest _ (hfits.recordInstr a.direction i.id x (a.transfer i x))

variable [BEq L]

/-- In a well-formed graph, a visit stays within facts that fit the graph. -/
theorem visit?_eq_some (hg : g.WellFormed) {b : Nat} {block : Block} (hb : g.block? b = some block)
    {facts : Facts L} (hfits : facts.Fits g) :
    a.visit? b block facts = some (a.visit b block facts) := by
  have hlt := FlowGraph.lt_blockCount_of_block? hb
  have hgather : a.gather? facts block = some (a.gather facts block) :=
    gather?_eq_some fun s hs ↦ hfits.size_blockLeave a.direction ▸ a.direction.source_lt hg hb hs
  have hids : ∀ i ∈ a.direction.path block, i.id < g.instrCount := fun i hi ↦
    hg.id_lt (FlowGraph.mem_instrs_of_block? hb (Direction.mem_path.mp hi))
  have hthread := thread?_eq_some (a := a) hids (a.gather facts block) hfits
  have hrecord := (fits_thread (a := a) hfits (a.direction.path block)
    (a.gather facts block)).recordBlock? hlt
  have henter : b < (facts.blockEnter a.direction).size := hfits.size_blockEnter a.direction ▸ hlt
  have hleave : b < (facts.blockLeave a.direction).size := hfits.size_blockLeave a.direction ▸ hlt
  have hentered := Array.getElem?_eq_getElem henter
  have hleft := Array.getElem?_eq_getElem hleave
  rw [visit_eq_visitAlong]
  simp only [visit?, visitAlong, passThrough, hgather, hthread, blockEnter_thread,
    blockLeave_thread, hentered, hleft, hrecord, Option.bind_eq_bind, Option.bind_some,
    Option.some_beq_some]
  rfl

/-! ### The states of a run -/

/-- The worklist solver comes to this state at the start of an iteration. -/
inductive AtIteration (a : Analysis L) (g : FlowGraph) (start : Facts L) : Revisiting L → Prop
  | first : AtIteration a g start
      { facts := start.fit g a.initial, events := #[], work := a.initialWork g, iterations := 0 }
  | next {s : Revisiting L} (h : AtIteration a g start s) (hwaits : s.work.queue ≠ []) :
      AtIteration a g start (a.worklistStep g s)

theorem iterations_worklistStep {s : Revisiting L} (hwaits : s.work.queue ≠ []) :
    (a.worklistStep g s).iterations = s.iterations + 1 := by
  rcases worklistStep_cases a g s with ⟨hpop, -⟩ | ⟨b, rest, -, -, hstep⟩ |
    ⟨b, rest, block, -, -, hstep⟩
  · exact absurd (Worklist.queue_of_pop?_eq_none hpop) hwaits
  · rw [hstep]
  · rw [hstep]

/-- A run stops in such a state, when nothing waits or the limit is reached. -/
theorem atIteration_lastRevisit (limit : Nat) (start : Facts L) :
    a.AtIteration g start (a.lastRevisit g limit start) ∧
      (a.lastRevisit g limit start).iterations ≤ limit ∧
      ((a.lastRevisit g limit start).work.queue ≠ [] →
        (a.lastRevisit g limit start).iterations = limit) := by
  induction limit with
  | zero => exact ⟨.first, Nat.le_refl 0, fun _ ↦ rfl⟩
  | succ limit ih =>
    obtain ⟨hat, hle, hlimit⟩ := ih
    rw [lastRevisit_add_one]
    split_ifs with hdone
    · exact ⟨hat, Nat.le_succ_of_le hle, fun hwaits ↦ absurd (List.isEmpty_iff.mp hdone) hwaits⟩
    · have hwaits : (a.lastRevisit g limit start).work.queue ≠ [] := fun hempty ↦
        hdone (List.isEmpty_iff.mpr hempty)
      rw [iterations_worklistStep hwaits, hlimit hwaits]
      exact ⟨hat.next hwaits, Nat.le_refl _, fun _ ↦ rfl⟩

theorem sound_worklistStep {s : Revisiting L} (hs : s.work.Sound) :
    (a.worklistStep g s).work.Sound := by
  rcases worklistStep_cases a g s with ⟨-, hstep⟩ | ⟨b, rest, hpop, -, hstep⟩ |
    ⟨b, rest, block, hpop, -, hstep⟩
  · rw [hstep]
    exact hs
  · rw [hstep]
    exact hs.pop? hpop
  · rw [hstep]
    dsimp only
    split_ifs
    · exact (Worklist.sound_foldl_push (hs.pop? hpop) _).1
    · exact hs.pop? hpop

/-- What holds of the queue, its set and the facts between two iterations. -/
structure Tidy (a : Analysis L) (g : FlowGraph) (s : Revisiting L) : Prop
    extends a.Accounted g s where
  sound : s.work.Sound
  fits : s.facts.Fits g

theorem Tidy.worklistStep (hg : g.WellFormed) {s : Revisiting L} (hs : a.Tidy g s)
    (hwaits : s.work.queue ≠ []) : a.Tidy g (a.worklistStep g s) where
  toAccounted := hs.toAccounted.worklistStep hg hwaits
  sound := sound_worklistStep hs.sound
  fits := worklistStep_preserves (P := fun facts ↦ facts.Fits g)
    (fun _ hfits ↦ fits_visit hfits _ _) s hs.fits

theorem AtIteration.tidy (hg : g.WellFormed) {s : Revisiting L} (h : a.AtIteration g start s) :
    a.Tidy g s := by
  induction h with
  | first =>
    exact ⟨⟨fun b hb ↦ mem_order.mp hb, rfl, List.prefix_rfl⟩, sound_initialWork a g,
      start.fits_fit g a.initial⟩
  | next _ hwaits ih => exact ih.worklistStep hg hwaits

/-! ### What waits -/

/-- The queue repeats no block and is as long as the graph at most, its set holds the same blocks,
each of them is a block whose visit stays within the facts, and no iteration was without a visit. -/
structure Orderly (a : Analysis L) (g : FlowGraph) (s : Revisiting L) : Prop where
  nodup : s.work.queue.Nodup
  mem_queued_iff : ∀ b, b ∈ s.work.queued ↔ b ∈ s.work.queue
  visits : ∀ b ∈ s.work.queue, ∃ block, g.block? b = some block ∧
    a.visit? b block s.facts = some (a.visit b block s.facts)
  length_le : s.work.queue.length ≤ g.blockCount
  iterations_eq : s.iterations = s.events.size

theorem Tidy.orderly (hg : g.WellFormed) {s : Revisiting L} (hs : a.Tidy g s) : a.Orderly g s where
  nodup := hs.sound.nodup
  mem_queued_iff _ := hs.sound.mem_queued_iff
  visits b hb := by
    obtain ⟨block, hblock⟩ := FlowGraph.exists_block?_of_lt (hs.lt_blockCount b hb)
    exact ⟨block, hblock, visit?_eq_some hg hblock hs.fits⟩
  length_le := by
    have hsub : s.work.queue ⊆ List.range g.blockCount := fun b hb ↦
      List.mem_range.mpr (hs.lt_blockCount b hb)
    simpa using (hs.sound.nodup.subperm hsub).length_le
  iterations_eq := hs.iterations_eq

theorem blockVisits_eq_iterations (hg : g.WellFormed) {limit : Nat} {stats : Stats}
    (hok : (a.solveWorklist g limit start).outcome = .ok stats) :
    stats.blockVisits = stats.iterations := by
  cases hblocks : g.isEmpty with
  | true =>
    simp only [solveWorklist, hblocks, if_true, Except.ok.injEq] at hok
    rw [← hok]
  | false =>
    have heq := (accounted_lastRevisit (a := a) hg limit start).iterations_eq
    rw [solveWorklist_eq hblocks] at hok
    dsimp only at hok
    split_ifs at hok
    obtain rfl := Except.ok.inj hok
    exact heq.symm

/-- On a built graph, whatever the analysis and the facts at the start: the worklist solver is in
order at the start of every iteration, under every limit it stops in such a state, and if it
converges its visits are its iterations. -/
theorem worklist_free_of_strangers {d : Draft} (hbuild : d.build = .ok g) (a : Analysis L)
    (start : Facts L) :
    (∀ s, a.AtIteration g start s → a.Orderly g s) ∧
      ∀ limit,
        (g.isEmpty = false → ∃ s, a.AtIteration g start s ∧ s.iterations ≤ limit ∧
          (s.work.queue ≠ [] → s.iterations = limit) ∧
          a.solveWorklist g limit start =
            { facts := s.facts
              events := s.events
              outcome :=
                if s.work.queue.isEmpty then .ok ⟨.worklist, s.iterations, s.events.size⟩
                else .error ⟨a.name, .worklist, limit⟩ }) ∧
        ∀ stats, (a.solveWorklist g limit start).outcome = .ok stats →
          stats.blockVisits = stats.iterations := by
  have hg := d.wellFormed_of_build hbuild
  refine ⟨fun s hs ↦ (hs.tidy hg).orderly hg, fun limit ↦ ⟨fun hblocks ↦ ?_, fun stats hok ↦ ?_⟩⟩
  · obtain ⟨hat, hle, hlimit⟩ := atIteration_lastRevisit (a := a) (g := g) limit start
    exact ⟨a.lastRevisit g limit start, hat, hle, hlimit, solveWorklist_eq hblocks limit start⟩
  · exact blockVisits_eq_iterations hg hok

/-- Counting over a self loop: the visit of the loop queues its block again, behind those that still
wait. -/
theorem worklist_free_of_strangers_selfLoop :
    let a := Counting.analysis { cap := 3 } .forward
    let g := Draft.selfLoop.toFlowGraph
    let start : Facts Nat :=
      { blockIn := #[7], blockOut := #[], instrIn := #[1, 2], instrOut := #[9] }
    let s := a.lastRevisit g 2 start
    s.work.queue = [2, 3, 1] ∧ a.Orderly g s ∧
      (a.solveWorklist g 40 start).outcome = .ok ⟨.worklist, 8, 8⟩ ∧
      ∀ limit stats, (a.solveWorklist g limit start).outcome = .ok stats →
        stats.blockVisits = stats.iterations := by
  intro a g start s
  have hbuild : Draft.selfLoop.build = .ok g := rfl
  obtain ⟨horderly, hruns⟩ := worklist_free_of_strangers hbuild a start
  exact ⟨by decide +kernel, horderly s (atIteration_lastRevisit 2 start).1, by decide +kernel,
    fun limit ↦ (hruns limit).2⟩

end Analysis

end FlowFacts

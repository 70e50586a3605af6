import FlowFacts.BitSet.Lemmas
import FlowFacts.Counting
import FlowFacts.Proofs.BlockVisit

/-!
A solver that converges leaves a solution of the dataflow equations, whatever facts it started from
and whatever laws the analysis breaks. The worklist keeps every block that does not wait
consistent: a visit that changes what leaves a block queues all blocks that take it. A sweep that
changes nothing makes every block consistent. Consistent blocks satisfy the equations.
-/

set_option autoImplicit false
set_option relaxedAutoImplicit false

namespace FlowFacts

theorem getD_of_getElem? {L : Type} {items : Array L} {n : Nat} {x : L}
    (h : items[n]? = some x) (initial : L) : items.getD n initial = x := by
  rw [Array.getD_eq_getD_getElem?, h, Option.getD_some]

theorem iterateUntil_invariant {σ : Type} {done : σ → Bool} {step : σ → σ} {P : σ → Prop}
    (hstep : ∀ s, P s → P (step s)) (limit : Nat) {s : σ} (hs : P s) :
    P (iterateUntil done step limit s) := by
  induction limit generalizing s with
  | zero => exact hs
  | succ limit ih =>
    rw [iterateUntil]
    split_ifs
    · exact hs
    · exact ih (hstep s hs)

/-- Two loops stay related when their steps keep them so and they stop at the same time. -/
theorem iterateUntil_related {σ τ : Type} {done : σ → Bool} {done' : τ → Bool} {step : σ → σ}
    {step' : τ → τ} {Related : σ → τ → Prop}
    (hdone : ∀ s t, Related s t → done s = done' t)
    (hstep : ∀ s t, Related s t → done s = false → Related (step s) (step' t)) (limit : Nat)
    {s : σ} {t : τ} (h : Related s t) :
    Related (iterateUntil done step limit s) (iterateUntil done' step' limit t) := by
  induction limit generalizing s t with
  | zero => exact h
  | succ limit ih =>
    rw [iterateUntil, iterateUntil, ← hdone s t h]
    split_ifs with hstop
    · exact h
    · exact ih (hstep s t h (eq_false_of_ne_true hstop))

namespace Worklist

/-- The queue repeats no block, and the set holds the blocks of the queue. -/
structure Sound (w : Worklist) : Prop where
  nodup : w.queue.Nodup
  mem_queued_iff : ∀ {b : Nat}, b ∈ w.queued ↔ b ∈ w.queue

variable {w : Worklist}

theorem mem_queue_push (hw : w.Sound) (b c : Nat) :
    c ∈ (w.push b).queue ↔ c ∈ w.queue ∨ c = b := by
  unfold push
  split_ifs with hb
  · have hmem : b ∈ w.queue := hw.mem_queued_iff.mp hb
    constructor
    · exact Or.inl
    · rintro (hc | rfl)
      · exact hc
      · exact hmem
  · simp

theorem Sound.push (hw : w.Sound) (b : Nat) : (w.push b).Sound := by
  unfold Worklist.push
  split_ifs with hb
  · exact hw
  · have hnot : b ∉ w.queue := fun hmem ↦ hb (hw.mem_queued_iff.mpr hmem)
    refine ⟨?_, fun {c} ↦ ?_⟩
    · rw [List.nodup_append]
      refine ⟨hw.nodup, List.nodup_singleton b, fun c hc d hd heq ↦ ?_⟩
      rw [heq, List.mem_singleton.mp hd] at hc
      exact hnot hc
    · rw [BitSet.mem_insert, hw.mem_queued_iff, List.mem_append, List.mem_singleton, or_comm]

theorem sound_foldl_push (hw : w.Sound) (targets : List Nat) :
    (targets.foldl Worklist.push w).Sound ∧
      ∀ c, c ∈ (targets.foldl Worklist.push w).queue ↔ c ∈ w.queue ∨ c ∈ targets := by
  induction targets generalizing w with
  | nil => exact ⟨hw, by simp⟩
  | cons b rest ih =>
    obtain ⟨hsound, hmem⟩ := ih (hw.push b)
    refine ⟨hsound, fun c ↦ ?_⟩
    rw [List.foldl_cons, hmem, mem_queue_push hw, List.mem_cons, or_assoc]

/-- What waits already stays in front of the blocks that are queued. -/
theorem queue_foldl_push (targets : List Nat) (w : Worklist) :
    ∃ added ⊆ targets, (targets.foldl Worklist.push w).queue = w.queue ++ added := by
  induction targets generalizing w with
  | nil => exact ⟨[], List.Subset.refl [], (List.append_nil _).symm⟩
  | cons b rest ih =>
    obtain ⟨added, hadded, hqueue⟩ := ih (w.push b)
    have hpush : ∃ front ⊆ [b], (w.push b).queue = w.queue ++ front := by
      unfold Worklist.push
      split_ifs
      · exact ⟨[], List.nil_subset _, (List.append_nil _).symm⟩
      · exact ⟨[b], List.Subset.refl _, rfl⟩
    obtain ⟨front, hfront, hpushed⟩ := hpush
    refine ⟨front ++ added, List.append_subset.mpr ⟨?_, ?_⟩, ?_⟩
    · exact List.Subset.trans hfront (by simp)
    · exact List.subset_cons_of_subset b hadded
    · rw [List.foldl_cons, hqueue, hpushed, List.append_assoc]

theorem queue_of_pop? {b : Nat} {rest : Worklist} (h : w.pop? = some (b, rest)) :
    w.queue = b :: rest.queue := by
  unfold pop? at h
  split at h
  · cases h
  · next hqueue =>
    cases h
    exact hqueue

theorem queue_of_pop?_eq_none (h : w.pop? = none) : w.queue = [] := by
  unfold pop? at h
  split at h
  · assumption
  · cases h

theorem Sound.pop? (hw : w.Sound) {b : Nat} {rest : Worklist} (h : w.pop? = some (b, rest)) :
    rest.Sound := by
  have hnodup := hw.nodup
  rw [queue_of_pop? h, List.nodup_cons] at hnodup
  refine ⟨hnodup.2, fun {c} ↦ ?_⟩
  have hmem := hw.mem_queued_iff (b := c)
  rw [queue_of_pop? h, List.mem_cons] at hmem
  unfold Worklist.pop? at h
  split at h
  · cases h
  · next hqueue =>
    cases h
    rw [BitSet.mem_erase, hmem]
    by_cases hc : c = b
    · subst hc
      simpa using hnodup.1
    · simp [hc]

end Worklist

namespace Analysis

variable {L : Type} {a : Analysis L} {g : FlowGraph}

theorem mem_order {direction : Direction} {b : Nat} : b ∈ direction.order g ↔ b < g.blockCount := by
  cases direction <;> simp [Direction.order, FlowGraph.blockIds]

theorem length_order (direction : Direction) : (direction.order g).length = g.blockCount := by
  cases direction <;> simp [Direction.order, FlowGraph.blockIds]

theorem sound_initialWork (a : Analysis L) (g : FlowGraph) : (a.initialWork g).Sound := by
  refine ⟨?_, fun {b} ↦ ?_⟩
  · unfold initialWork
    cases a.direction with
    | forward => exact List.nodup_range
    | backward => exact List.nodup_reverse.mpr List.nodup_range
  · simp [initialWork, mem_order]

theorem gather_eq_foldl (hg : g.WellFormed) {facts : Facts L} (hfits : facts.Fits g) {b : Nat}
    {block : Block} (hb : g.block? b = some block) :
    a.gather facts block = (a.direction.sources block).foldl
      (fun fact source ↦ a.meet fact (facts.at a.initial (a.direction.leave source)))
      a.initial := by
  refine List.foldl_ext _ _ _ fun fact source hsource ↦ ?_
  have hlt : source < (facts.blockLeave a.direction).size :=
    hfits.size_blockLeave a.direction ▸ a.direction.source_lt hg hb hsource
  have hleave := Array.getElem?_eq_getElem hlt
  rw [Facts.at_leave, getD_of_getElem? hleave, hleave]

variable [BEq L]

/-! ### What every visit preserves -/

/-- A step of the worklist solver finds nothing to do, passes over a stranger or visits a block. -/
theorem worklistStep_cases (a : Analysis L) (g : FlowGraph) (s : Revisiting L) :
    (s.work.pop? = none ∧ a.worklistStep g s = s) ∨
      (∃ b rest, s.work.pop? = some (b, rest) ∧ g.block? b = none ∧
        a.worklistStep g s = { s with work := rest, iterations := s.iterations + 1 }) ∨
      ∃ b rest block, s.work.pop? = some (b, rest) ∧ g.block? b = some block ∧
        a.worklistStep g s =
          { facts := (a.visit b block s.facts).1
            events := s.events.push
              { iteration := s.iterations + 1
                block := some b
                changed := (a.visit b block s.facts).2 }
            work :=
              if (a.visit b block s.facts).2 then
                (a.direction.targets block).foldl Worklist.push rest
              else rest
            iterations := s.iterations + 1 } := by
  unfold worklistStep
  split
  · next hpop => exact Or.inl ⟨hpop, rfl⟩
  · next b rest hpop =>
    split
    · next hblock => exact Or.inr (Or.inl ⟨b, rest, hpop, hblock, rfl⟩)
    · next block hblock => exact Or.inr (Or.inr ⟨b, rest, block, hpop, hblock, rfl⟩)

theorem worklistStep_of_pop? {s : Revisiting L} {b : Nat} {rest : Worklist} {block : Block}
    (hpop : s.work.pop? = some (b, rest)) (hb : g.block? b = some block) :
    (a.worklistStep g s).facts = (a.visit b block s.facts).1 ∧
      ∃ added ⊆ a.direction.targets block,
        (a.worklistStep g s).work.queue = rest.queue ++ added := by
  simp only [worklistStep, hpop, hb, true_and]
  split_ifs
  · exact Worklist.queue_foldl_push _ rest
  · exact ⟨[], List.nil_subset _, (List.append_nil _).symm⟩

/-- The state in which the sweeping solver ends on a graph with blocks. -/
def lastSweep (a : Analysis L) (g : FlowGraph) (limit : Nat) (start : Facts L) : Sweeping L :=
  iterateUntil Sweeping.settled (a.sweepStep g) limit
    { facts := start.fit g a.initial, events := #[], settled := false }

/-- The state in which the worklist solver ends on a graph with blocks. -/
def lastRevisit (a : Analysis L) (g : FlowGraph) (limit : Nat) (start : Facts L) : Revisiting L :=
  iterateUntil (fun s ↦ s.work.queue.isEmpty) (a.worklistStep g) limit
    { facts := start.fit g a.initial, events := #[], work := a.initialWork g, iterations := 0 }

theorem facts_solveNaive (hg : g.isEmpty = false) (limit : Nat) (start : Facts L) :
    (a.solveNaive g limit start).facts = (a.lastSweep g limit start).facts := by
  rw [solveNaive, hg]
  rfl

theorem facts_solveWorklist (hg : g.isEmpty = false) (limit : Nat) (start : Facts L) :
    (a.solveWorklist g limit start).facts = (a.lastRevisit g limit start).facts := by
  rw [solveWorklist, hg]
  rfl

theorem settled_of_solveNaive_ok (hg : g.isEmpty = false) {limit : Nat} {start : Facts L}
    {stats : Stats} (hok : (a.solveNaive g limit start).outcome = .ok stats) :
    (a.lastSweep g limit start).settled = true := by
  rw [solveNaive, hg] at hok
  by_contra hunsettled
  rw [lastSweep, Bool.not_eq_true] at hunsettled
  simp [hunsettled] at hok

theorem queue_of_solveWorklist_ok (hg : g.isEmpty = false) {limit : Nat} {start : Facts L}
    {stats : Stats} (hok : (a.solveWorklist g limit start).outcome = .ok stats) :
    (a.lastRevisit g limit start).work.queue = [] := by
  rw [solveWorklist, hg] at hok
  by_contra hwaiting
  rw [lastRevisit, ← List.isEmpty_iff, Bool.not_eq_true] at hwaiting
  simp [hwaiting] at hok

/-- A settled run converged; there is nothing to settle in a graph without blocks. -/
theorem solveNaive_ok_of_settled {limit : Nat} {start : Facts L}
    (h : g.isEmpty = false → (a.lastSweep g limit start).settled = true) :
    ∃ stats, (a.solveNaive g limit start).outcome = .ok stats := by
  cases hempty : g.isEmpty with
  | true => exact ⟨_, by rw [solveNaive, hempty]; rfl⟩
  | false =>
    rw [solveNaive, hempty]
    exact ⟨_, if_pos (h hempty)⟩

theorem solveWorklist_ok_of_queue {limit : Nat} {start : Facts L}
    (h : g.isEmpty = false → (a.lastRevisit g limit start).work.queue.isEmpty = true) :
    ∃ stats, (a.solveWorklist g limit start).outcome = .ok stats := by
  cases hempty : g.isEmpty with
  | true => exact ⟨_, by rw [solveWorklist, hempty]; rfl⟩
  | false =>
    rw [solveWorklist, hempty]
    exact ⟨_, if_pos (h hempty)⟩

section Preserved

variable {P : Facts L → Prop}
  (hvisit : ∀ {b : Nat} {block : Block} {facts : Facts L}, g.block? b = some block → P facts →
    P (a.visit b block facts).1)

include hvisit

theorem sweepBlock_preserves (b : Nat) {state : Facts L × Bool} (h : P state.1) :
    P (a.sweepBlock g state b).1 := by
  unfold sweepBlock
  split
  · exact h
  · next hblock => exact hvisit hblock h

theorem sweep_preserves {facts : Facts L} (h : P facts) : P (a.sweep g facts).1 := by
  unfold sweep
  generalize a.direction.order g = blocks
  suffices hfold : ∀ state : Facts L × Bool, P state.1 →
      P (blocks.foldl (a.sweepBlock g) state).1 from hfold (facts, false) h
  induction blocks with
  | nil => exact fun _ hstate ↦ hstate
  | cons b rest ih => exact fun state hstate ↦ ih _ (sweepBlock_preserves hvisit b hstate)

theorem worklistStep_preserves (s : Revisiting L) (h : P s.facts) :
    P (a.worklistStep g s).facts := by
  rcases worklistStep_cases a g s with ⟨-, hstep⟩ | ⟨b, rest, -, -, hstep⟩ |
    ⟨b, rest, block, -, hblock, hstep⟩
  · rw [hstep]
    exact h
  · rw [hstep]
    exact h
  · rw [hstep]
    exact hvisit hblock h

/-- What every visit preserves holds of the facts that a solver leaves, converged or not. -/
theorem solveFrom_preserves (hg : g.isEmpty = false) (strategy : Strategy) (limit : Nat)
    {start : Facts L} (hfit : P (start.fit g a.initial)) :
    P (a.solveFrom strategy g limit start).facts := by
  cases strategy with
  | naive =>
    rw [solveFrom, facts_solveNaive hg]
    exact iterateUntil_invariant (P := fun s : Sweeping L ↦ P s.facts)
      (fun s hs ↦ sweep_preserves hvisit hs) limit hfit
  | worklist =>
    rw [solveFrom, facts_solveWorklist hg]
    exact iterateUntil_invariant (P := fun s : Revisiting L ↦ P s.facts)
      (fun s hs ↦ worklistStep_preserves hvisit s hs) limit hfit

end Preserved

theorem fits_solveFrom (a : Analysis L) (hg : g.isEmpty = false) (strategy : Strategy) (limit : Nat)
    (start : Facts L) : (a.solveFrom strategy g limit start).facts.Fits g :=
  solveFrom_preserves (P := fun facts ↦ facts.Fits g) (fun _ hfits ↦ fits_visit hfits _ _) hg
    strategy limit (start.fits_fit g a.initial)

theorem facts_solveFrom_of_isEmpty (hg : g.isEmpty = true) (strategy : Strategy) (limit : Nat)
    (start : Facts L) : (a.solveFrom strategy g limit start).facts = start := by
  cases strategy <;> simp [solveFrom, solveNaive, solveWorklist, hg]

theorem fits_solveFrom_of_fits (a : Analysis L) (strategy : Strategy) (limit : Nat)
    {start : Facts L} (h : start.Fits g) : (a.solveFrom strategy g limit start).facts.Fits g := by
  cases hempty : g.isEmpty with
  | false => exact a.fits_solveFrom hempty strategy limit start
  | true =>
    rw [facts_solveFrom_of_isEmpty hempty]
    exact h

theorem fits_run (a : Analysis L) (c : Config) (g : FlowGraph) : (a.run c g).facts.Fits g :=
  a.fits_solveFrom_of_fits c.strategy c.limit (Facts.fits_new g a.initial)

theorem solve_eq_ok_iff {c : Config} {r : Results L} :
    a.solve c g = .ok r ↔ ∃ stats, (a.run c g).outcome = .ok stats ∧
      r = Results.ofFacts (a.run c g).facts a.initial a.direction stats := by
  unfold solve resultsOf
  cases (a.run c g).outcome with
  | error e => simp [Except.map]
  | ok stats => simp [Except.map, eq_comm]

/-! ### Consistent blocks -/

variable [EquivBEq L]

/-- After a part of a sweep that reports no change, the blocks visited in it are consistent, and so
are those that were before. -/
theorem consistent_foldl_sweepBlock (hg : g.WellFormed) (ha : a.Respectful) {blocks : List Nat}
    {state : Facts L × Bool} (hfits : state.1.Fits g)
    (hsame : (blocks.foldl (a.sweepBlock g) state).2 = false) :
    state.2 = false ∧ ∀ {c : Nat} {other : Block}, g.block? c = some other →
      c ∈ blocks ∨ a.Consistent state.1 c other →
      a.Consistent (blocks.foldl (a.sweepBlock g) state).1 c other := by
  induction blocks generalizing state with
  | nil => exact ⟨hsame, fun _ h ↦ h.resolve_left List.not_mem_nil⟩
  | cons b rest ih =>
    rw [List.foldl_cons] at hsame ⊢
    obtain ⟨hstate, hrest⟩ := ih (sweepBlock_preserves (P := fun facts ↦ facts.Fits g)
      (fun _ hfits ↦ fits_visit hfits _ _) b hfits) hsame
    cases hb : g.block? b with
    | none =>
      have hskip : a.sweepBlock g state b = state := by simp [sweepBlock, hb]
      rw [hskip] at hstate hrest ⊢
      refine ⟨hstate, fun hc h ↦ hrest hc ?_⟩
      rcases h with hmem | h
      · rcases List.mem_cons.mp hmem with rfl | hmem
        · simp [hb] at hc
        · exact Or.inl hmem
      · exact Or.inr h
    | some block =>
      have hvisited : a.sweepBlock g state b =
          ((a.visit b block state.1).1, state.2 || (a.visit b block state.1).2) := by
        simp [sweepBlock, hb]
      rw [hvisited] at hstate hrest ⊢
      obtain ⟨hflag, hchanged⟩ := Bool.or_eq_false_iff.mp hstate
      refine ⟨hflag, fun {c other} hc h ↦ hrest hc ?_⟩
      by_cases hmem : c ∈ rest
      · exact Or.inl hmem
      · refine Or.inr (consistent_visit hg ha hb hc hfits (Or.inl hchanged) ?_)
        rcases h with h | h
        · exact Or.inl ((List.mem_cons.mp h).resolve_right hmem)
        · exact Or.inr h

/-- Between two sweeps, all blocks are consistent if the last one changed nothing. -/
structure Swept (a : Analysis L) (g : FlowGraph) (s : Sweeping L) : Prop where
  fits : s.facts.Fits g
  consistent : s.settled = true → ∀ {b : Nat} {block : Block}, g.block? b = some block →
    a.Consistent s.facts b block

theorem swept_sweepStep (hg : g.WellFormed) (ha : a.Respectful) {s : Sweeping L}
    (hs : a.Swept g s) : a.Swept g (a.sweepStep g s) := by
  refine ⟨sweep_preserves (P := fun facts ↦ facts.Fits g)
    (fun _ hfits ↦ fits_visit hfits _ _) hs.fits, fun hsettled {b block} hb ↦ ?_⟩
  have hunchanged : (a.sweep g s.facts).2 = false := by simpa [sweepStep] using hsettled
  have hmem : b ∈ a.direction.order g := mem_order.mpr (FlowGraph.lt_blockCount_of_block? hb)
  exact (consistent_foldl_sweepBlock hg ha hs.fits hunchanged).2 hb (Or.inl hmem)

theorem swept_lastSweep (hg : g.WellFormed) (ha : a.Respectful) (limit : Nat) (start : Facts L) :
    a.Swept g (a.lastSweep g limit start) :=
  iterateUntil_invariant (fun s hs ↦ swept_sweepStep hg ha hs) limit
    ⟨start.fits_fit g a.initial, fun hsettled ↦ by simp at hsettled⟩

/-- Between two visits of the worklist solver, the blocks that do not wait are consistent. -/
structure Progress (a : Analysis L) (g : FlowGraph) (s : Revisiting L) : Prop where
  fits : s.facts.Fits g
  sound : s.work.Sound
  consistent : ∀ {b : Nat} {block : Block}, g.block? b = some block → b ∉ s.work.queue →
    a.Consistent s.facts b block

theorem progress_worklistStep (hg : g.WellFormed) (ha : a.Respectful) {s : Revisiting L}
    (hs : a.Progress g s) : a.Progress g (a.worklistStep g s) := by
  rcases worklistStep_cases a g s with ⟨-, hstep⟩ | ⟨b, rest, hpop, hb, hstep⟩ |
    ⟨b, rest, block, hpop, hb, hstep⟩
  · rw [hstep]
    exact hs
  · rw [hstep]
    refine ⟨hs.fits, hs.sound.pop? hpop, fun {c other} hc hwaits ↦ hs.consistent hc ?_⟩
    rw [Worklist.queue_of_pop? hpop, List.mem_cons]
    rintro (rfl | hmem)
    · simp [hb] at hc
    · exact hwaits hmem
  · rw [hstep]
    have hrest := hs.sound.pop? hpop
    obtain ⟨hpushed, hqueue⟩ := Worklist.sound_foldl_push hrest (a.direction.targets block)
    have hvisited : ∀ {c : Nat} {other : Block}, g.block? c = some other → c ∉ rest.queue →
        (a.visit b block s.facts).2 = false ∨ b ∉ a.direction.sources other →
        a.Consistent (a.visit b block s.facts).1 c other := by
      intro c other hc hwaits hsame
      refine consistent_visit hg ha hb hc hs.fits hsame ?_
      by_cases hcb : c = b
      · exact Or.inl hcb
      · refine Or.inr (hs.consistent hc ?_)
        rw [Worklist.queue_of_pop? hpop, List.mem_cons]
        exact fun h ↦ h.elim hcb hwaits
    cases hchanged : (a.visit b block s.facts).2 with
    | false =>
      exact ⟨fits_visit hs.fits b block, hrest,
        fun hc hwaits ↦ hvisited hc hwaits (Or.inl hchanged)⟩
    | true =>
      refine ⟨fits_visit hs.fits b block, hpushed, fun {c other} hc hwaits ↦ ?_⟩
      have hnot : ¬(c ∈ rest.queue ∨ c ∈ a.direction.targets block) := fun h ↦
        hwaits ((hqueue c).mpr h)
      exact hvisited hc (fun h ↦ hnot (Or.inl h)) (Or.inr fun hsource ↦
        hnot (Or.inr (Direction.mem_targets_of_mem_sources hg a.direction hb hc hsource)))

omit [EquivBEq L] in
theorem progress_initial (a : Analysis L) (g : FlowGraph) (start : Facts L) :
    a.Progress g
      { facts := start.fit g a.initial, events := #[], work := a.initialWork g, iterations := 0 } :=
  ⟨start.fits_fit g a.initial, sound_initialWork a g, fun hb hwaits ↦
    absurd (mem_order.mpr (FlowGraph.lt_blockCount_of_block? hb)) hwaits⟩

theorem progress_lastRevisit (hg : g.WellFormed) (ha : a.Respectful) (limit : Nat)
    (start : Facts L) : a.Progress g (a.lastRevisit g limit start) :=
  iterateUntil_invariant (fun _ hs ↦ progress_worklistStep hg ha hs) limit
    (a.progress_initial g start)

/-! ### Solutions -/

/-- Facts that fit a graph and are consistent at each of its blocks solve its equations. -/
theorem solves_of_consistent (hg : g.WellFormed) {facts : Facts L} (hfits : facts.Fits g)
    (hall : ∀ {b : Nat} {block : Block}, g.block? b = some block → a.Consistent facts b block) :
    a.Solves g (facts.at a.initial) := by
  rw [solves_iff]
  simp only [Facts.at_enter, Facts.at_enterInstr, Facts.at_leaveInstr]
  refine ⟨fun {b block} hb ↦ ?_, fun {b block i} hb hi ↦ ?_, fun {b block i} hb hi ↦ ?_,
    fun {b block i j} hb hij ↦ ?_, fun {b block i} hb hi ↦ ?_, fun {b block} hb hempty ↦ ?_⟩
  all_goals obtain ⟨x, y, henter, hthreaded, hleave, hx⟩ := hall hb
  · rw [getD_of_getElem? henter, ← gather_eq_foldl hg hfits hb]
    exact hx
  · rw [getD_of_getElem? henter, getD_of_getElem? (hthreaded.head hi)]
    exact BEq.rfl
  · obtain ⟨z, hbefore, hafter⟩ := hthreaded.passed hi
    rw [getD_of_getElem? hbefore, getD_of_getElem? hafter]
    exact BEq.rfl
  · obtain ⟨z, hafter, hbefore⟩ := hthreaded.pair hij
    rw [getD_of_getElem? hafter, getD_of_getElem? hbefore]
    exact BEq.rfl
  · rw [Facts.at_leave, getD_of_getElem? hleave, getD_of_getElem? (hthreaded.last hi)]
    exact BEq.rfl
  · rw [Facts.at_leave, getD_of_getElem? hleave, getD_of_getElem? henter]
    rw [hempty] at hthreaded
    obtain rfl : x = y := hthreaded
    exact BEq.rfl

/-- A converged run leaves a solution. -/
theorem solves_solveFrom (hg : g.WellFormed) (ha : a.Respectful) {strategy : Strategy}
    {limit : Nat} {start : Facts L} {stats : Stats}
    (hok : (a.solveFrom strategy g limit start).outcome = .ok stats) :
    a.Solves g ((a.solveFrom strategy g limit start).facts.at a.initial) := by
  cases hempty : g.isEmpty with
  | true => exact solves_of_isEmpty hempty _
  | false =>
    refine solves_of_consistent hg (a.fits_solveFrom hempty strategy limit start) fun hb ↦ ?_
    cases strategy with
    | naive =>
      rw [solveFrom, facts_solveNaive hempty]
      exact (swept_lastSweep hg ha limit start).consistent (settled_of_solveNaive_ok hempty hok) hb
    | worklist =>
      rw [solveFrom, facts_solveWorklist hempty]
      refine (progress_lastRevisit hg ha limit start).consistent hb ?_
      rw [queue_of_solveWorklist_ok hempty hok]
      exact List.not_mem_nil

theorem solves_of_solve_ok (hg : g.WellFormed) (ha : a.Respectful) {c : Config} {r : Results L}
    (h : a.solve c g = .ok r) : a.Solves g r.at := by
  obtain ⟨stats, hok, rfl⟩ := solve_eq_ok_iff.mp h
  rw [Results.at_eq]
  exact solves_solveFrom hg ha hok

/-- On a built graph with blocks, a converged run of either solver leaves facts for exactly the
points of the graph, and they solve the dataflow equations. -/
theorem converged_facts_solve (ha : a.Respectful) {d : Draft} (hbuild : d.build = .ok g)
    (hblocks : g.isEmpty = false) (strategy : Strategy) (limit : Nat) (start : Facts L)
    {stats : Stats} (hok : (a.solveFrom strategy g limit start).outcome = .ok stats) :
    (a.solveFrom strategy g limit start).facts.Fits g ∧
      a.Solves g ((a.solveFrom strategy g limit start).facts.at a.initial) :=
  ⟨a.fits_solveFrom hblocks strategy limit start,
    solves_solveFrom (d.wellFormed_of_build hbuild) ha hok⟩

/-- Counting over a self loop, from facts of another shape. -/
theorem converged_facts_solve_selfLoop :
    let a := Counting.analysis { cap := 3 } .forward
    let g := Draft.selfLoop.toFlowGraph
    let start : Facts Nat :=
      { blockIn := #[7], blockOut := #[], instrIn := #[1, 2], instrOut := #[9] }
    (a.solveFrom .worklist g 40 start).outcome = .ok ⟨.worklist, 8, 8⟩ ∧
      (a.solveFrom .worklist g 40 start).facts.Fits g ∧
      a.Solves g ((a.solveFrom .worklist g 40 start).facts.at a.initial) := by
  intro a g start
  have hok : (a.solveFrom .worklist g 40 start).outcome = .ok ⟨.worklist, 8, 8⟩ := by
    decide +kernel
  have hbuild : Draft.selfLoop.build = .ok g := rfl
  exact ⟨hok, converged_facts_solve a.respectful_of_lawfulBEq hbuild rfl .worklist 40 start hok⟩

end Analysis

end FlowFacts

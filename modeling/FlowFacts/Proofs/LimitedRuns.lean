import FlowFacts.Proofs.Fixpoint

/-!
A limit only cuts a run short. Raise the limit of a run by one: if the run has converged nothing
changes, and otherwise it gains one event and the facts that the event leaves. So a run that
converges in some number of iterations is the same under every limit that allows them, and under a
smaller limit it stops with the events and the facts it had by then. No law of the analysis enters,
and where no limit is enough the runs are still initial parts of each other.
-/

set_option autoImplicit false
set_option relaxedAutoImplicit false

namespace FlowFacts

/-- A loop that may take one more step takes it last, unless it was done before. -/
theorem iterateUntil_add_one {σ : Type} (done : σ → Bool) (step : σ → σ) (n : Nat) (s : σ) :
    iterateUntil done step (n + 1) s =
      if done (iterateUntil done step n s) then iterateUntil done step n s
      else step (iterateUntil done step n s) := by
  induction n generalizing s with
  | zero => rfl
  | succ n ih =>
    by_cases hdone : done s = true
    · simp [iterateUntil, hdone]
    · have hfirst (k : Nat) :
          iterateUntil done step (k + 1) s = iterateUntil done step k (step s) := if_neg hdone
      rw [hfirst (n + 1), hfirst n]
      exact ih (step s)

namespace Analysis

variable {L : Type} [BEq L] {a : Analysis L} {g : FlowGraph} {strategy : Strategy} {n m : Nat}
  {start : Facts L}

/-- Does again what an event reports: a sweep, or the visit of a block. -/
def replay (a : Analysis L) (g : FlowGraph) (facts : Facts L) (event : Event) : Facts L :=
  match event.block with
  | none => (a.sweep g facts).1
  | some b => (a.sweepBlock g (facts, false) b).1

/-! ### The sweeping solver -/

theorem lastSweep_add_one (n : Nat) (start : Facts L) :
    a.lastSweep g (n + 1) start =
      if (a.lastSweep g n start).settled then a.lastSweep g n start
      else a.sweepStep g (a.lastSweep g n start) :=
  iterateUntil_add_one _ _ n _

theorem solveNaive_eq (hg : g.isEmpty = false) (n : Nat) (start : Facts L) :
    a.solveNaive g n start =
      { facts := (a.lastSweep g n start).facts
        events := (a.lastSweep g n start).events
        outcome :=
          if (a.lastSweep g n start).settled then
            .ok ⟨.naive, (a.lastSweep g n start).events.size,
              (a.lastSweep g n start).events.size * g.blockCount⟩
          else .error ⟨a.name, .naive, n⟩ } := by
  rw [solveNaive, hg]
  rfl

/-- Of the sweeps so far only the last can have changed nothing, and then the solver has settled. -/
theorem changed_lastSweep {i : Nat} {event : Event}
    (h : (a.lastSweep g n start).events[i]? = some event) :
    event.changed = false ↔
      (a.lastSweep g n start).settled = true ∧ i + 1 = (a.lastSweep g n start).events.size := by
  induction n generalizing i event with
  | zero => cases h
  | succ n ih =>
    rw [lastSweep_add_one] at h ⊢
    split_ifs at h ⊢ with hsettled
    · exact ih h
    · rw [sweepStep] at h ⊢
      rw [Array.getElem?_push] at h
      rw [Array.size_push]
      split_ifs at h with hi
      · obtain rfl := Option.some.inj h
        simp [hi]
      · have hlt := (Array.getElem?_eq_some_iff.mp h).1
        have hchanged : event.changed = true := by
          simpa [hsettled] using ih h
        simp [hchanged]
        omega

/-! ### The worklist solver -/

theorem lastRevisit_add_one (n : Nat) (start : Facts L) :
    a.lastRevisit g (n + 1) start =
      if (a.lastRevisit g n start).work.queue.isEmpty then a.lastRevisit g n start
      else a.worklistStep g (a.lastRevisit g n start) :=
  iterateUntil_add_one _ _ n _

theorem solveWorklist_eq (hg : g.isEmpty = false) (n : Nat) (start : Facts L) :
    a.solveWorklist g n start =
      { facts := (a.lastRevisit g n start).facts
        events := (a.lastRevisit g n start).events
        outcome :=
          if (a.lastRevisit g n start).work.queue.isEmpty then
            .ok ⟨.worklist, (a.lastRevisit g n start).iterations,
              (a.lastRevisit g n start).events.size⟩
          else .error ⟨a.name, .worklist, n⟩ } := by
  rw [solveWorklist, hg]
  rfl

/-- What the events and the queue of the worklist solver tell: every iteration visited a block, and
the visits so far, followed by those that wait, begin with one visit of each block in order. -/
structure Accounted (a : Analysis L) (g : FlowGraph) (s : Revisiting L) : Prop where
  lt_blockCount : ∀ b ∈ s.work.queue, b < g.blockCount
  iterations_eq : s.iterations = s.events.size
  ordered : (a.direction.order g).map some <+:
    s.events.toList.map Event.block ++ s.work.queue.map some

/-- A step from a queue of blocks visits the first and queues others behind the rest. -/
theorem worklistStep_of_queue {s : Revisiting L} (hs : ∀ b ∈ s.work.queue, b < g.blockCount)
    (hwaits : s.work.queue ≠ []) :
    ∃ b block rest added changed, g.block? b = some block ∧ s.work.queue = b :: rest ∧
      added ⊆ a.direction.targets block ∧
      (a.worklistStep g s).facts = (a.visit b block s.facts).1 ∧
      (a.worklistStep g s).events = s.events.push ⟨s.iterations + 1, some b, changed⟩ ∧
      (a.worklistStep g s).work.queue = rest ++ added ∧
      (a.worklistStep g s).iterations = s.iterations + 1 := by
  rcases worklistStep_cases a g s with ⟨hpop, -⟩ | ⟨b, rest, hpop, hb, -⟩ |
    ⟨b, rest, block, hpop, hb, hstep⟩
  · exact absurd (Worklist.queue_of_pop?_eq_none hpop) hwaits
  · have hqueue := Worklist.queue_of_pop? hpop
    obtain ⟨block, hblock⟩ := FlowGraph.exists_block?_of_lt (hs b (by simp [hqueue]))
    simp [hb] at hblock
  · obtain ⟨-, added, hadded, hqueue⟩ := worklistStep_of_pop? (a := a) hpop hb
    refine ⟨b, block, rest.queue, added, (a.visit b block s.facts).2, hb,
      Worklist.queue_of_pop? hpop, hadded, ?_, ?_, hqueue, ?_⟩
    all_goals rw [hstep]

theorem Accounted.worklistStep (hg : g.WellFormed) {s : Revisiting L} (hs : a.Accounted g s)
    (hwaits : s.work.queue ≠ []) : a.Accounted g (a.worklistStep g s) := by
  obtain ⟨b, block, rest, added, changed, hb, hqueue, hadded, -, hevents, hnext, hiterations⟩ :=
    worklistStep_of_queue (a := a) hs.lt_blockCount hwaits
  refine ⟨fun c hc ↦ ?_, ?_, ?_⟩
  · rw [hnext, List.mem_append] at hc
    rcases hc with hc | hc
    · exact hs.lt_blockCount c (hqueue ▸ List.mem_cons_of_mem b hc)
    · exact a.direction.target_lt hg hb (hadded hc)
  · rw [hiterations, hevents, Array.size_push, hs.iterations_eq]
  · have hordered := hs.ordered.trans (List.prefix_append _ (added.map some))
    rw [hqueue] at hordered
    rw [hevents, hnext]
    simpa using hordered

theorem accounted_lastRevisit (hg : g.WellFormed) (n : Nat) (start : Facts L) :
    a.Accounted g (a.lastRevisit g n start) := by
  induction n with
  | zero => exact ⟨fun b hb ↦ mem_order.mp hb, rfl, List.prefix_rfl⟩
  | succ n ih =>
    rw [lastRevisit_add_one]
    split_ifs with hdone
    · exact ih
    · exact ih.worklistStep hg fun hempty ↦ hdone (List.isEmpty_iff.mpr hempty)

/-! ### One more iteration -/

/-- How a run with limit `n` goes on when one more iteration is allowed. -/
inductive Continues (a : Analysis L) (g : FlowGraph) (strategy : Strategy) (n : Nat)
    (run next : Run L) : Prop
  | converged {stats : Stats} (hok : run.outcome = .ok stats) (hsame : next = run)
  | extended {event : Event} (hstopped : run.outcome = .error ⟨a.name, strategy, n⟩)
      (hnumber : event.iteration = run.events.size + 1)
      (hevents : next.events = run.events.push event)
      (hfacts : next.facts = a.replay g run.facts event)

theorem continues_solveNaive (n : Nat) (start : Facts L) :
    a.Continues g .naive n (a.solveNaive g n start) (a.solveNaive g (n + 1) start) := by
  cases hblocks : g.isEmpty with
  | true => exact .converged (by rw [solveNaive, hblocks]; rfl) (by simp [solveNaive, hblocks])
  | false =>
    have hnext := lastSweep_add_one (a := a) (g := g) n start
    rw [solveNaive_eq hblocks, solveNaive_eq hblocks]
    by_cases hsettled : (a.lastSweep g n start).settled = true
    · rw [if_pos hsettled] at hnext
      exact .converged (if_pos hsettled) (by simp [hnext, hsettled])
    · rw [if_neg hsettled] at hnext
      rw [hnext]
      exact .extended (if_neg hsettled) rfl rfl rfl

theorem continues_solveWorklist (hg : g.WellFormed) (n : Nat) (start : Facts L) :
    a.Continues g .worklist n (a.solveWorklist g n start) (a.solveWorklist g (n + 1) start) := by
  cases hblocks : g.isEmpty with
  | true =>
    exact .converged (by rw [solveWorklist, hblocks]; rfl) (by simp [solveWorklist, hblocks])
  | false =>
    have hnext := lastRevisit_add_one (a := a) (g := g) n start
    rw [solveWorklist_eq hblocks, solveWorklist_eq hblocks]
    by_cases hdone : (a.lastRevisit g n start).work.queue.isEmpty = true
    · rw [if_pos hdone] at hnext
      exact .converged (if_pos hdone) (by simp [hnext, hdone])
    · rw [if_neg hdone] at hnext
      have hs : a.Accounted g (a.lastRevisit g n start) := accounted_lastRevisit hg n start
      obtain ⟨b, block, rest, added, changed, hb, -, -, hfacts, hevents, -, -⟩ :=
        worklistStep_of_queue (a := a) hs.lt_blockCount
          fun hempty ↦ hdone (List.isEmpty_iff.mpr hempty)
      rw [hnext]
      refine .extended (if_neg hdone) ?_ hevents ?_
      · rw [hs.iterations_eq]
      · rw [hfacts]
        simp [replay, sweepBlock, hb]

theorem continues_solveFrom (hg : g.WellFormed) (strategy : Strategy) (n : Nat) (start : Facts L) :
    a.Continues g strategy n (a.solveFrom strategy g n start)
      (a.solveFrom strategy g (n + 1) start) := by
  cases strategy with
  | naive => exact continues_solveNaive n start
  | worklist => exact continues_solveWorklist hg n start

/-! ### All limits -/

theorem events_solveFrom_zero (strategy : Strategy) (start : Facts L) :
    (a.solveFrom strategy g 0 start).events = #[] := by
  cases strategy with
  | naive =>
    rw [solveFrom, solveNaive]
    split_ifs <;> rfl
  | worklist =>
    rw [solveFrom, solveWorklist]
    split_ifs <;> rfl

theorem outcome_solveFrom (hg : g.WellFormed) (strategy : Strategy) (n : Nat) (start : Facts L) :
    (∃ visits, (a.solveFrom strategy g n start).outcome =
        .ok ⟨strategy, (a.solveFrom strategy g n start).events.size, visits⟩) ∨
      (a.solveFrom strategy g n start).outcome = .error ⟨a.name, strategy, n⟩ := by
  cases hblocks : g.isEmpty with
  | true =>
    refine Or.inl ⟨0, ?_⟩
    cases strategy <;> simp [solveFrom, solveNaive, solveWorklist, hblocks]
  | false =>
    cases strategy with
    | naive =>
      rw [solveFrom, solveNaive_eq hblocks]
      by_cases hsettled : (a.lastSweep g n start).settled = true
      · exact Or.inl ⟨_, if_pos hsettled⟩
      · exact Or.inr (if_neg hsettled)
    | worklist =>
      have hs : a.Accounted g (a.lastRevisit g n start) := accounted_lastRevisit hg n start
      rw [solveFrom, solveWorklist_eq hblocks, hs.iterations_eq]
      by_cases hdone : (a.lastRevisit g n start).work.queue.isEmpty = true
      · exact Or.inl ⟨_, if_pos hdone⟩
      · exact Or.inr (if_neg hdone)

/-- There are no more events than the limit allows, and as many if the run has not converged. -/
theorem size_events_solveFrom (hg : g.WellFormed) (strategy : Strategy) (n : Nat)
    (start : Facts L) :
    (a.solveFrom strategy g n start).events.size ≤ n ∧
      ((∀ stats, (a.solveFrom strategy g n start).outcome ≠ .ok stats) →
        (a.solveFrom strategy g n start).events.size = n) := by
  induction n with
  | zero => simp [events_solveFrom_zero]
  | succ n ih =>
    cases continues_solveFrom (a := a) hg strategy n start with
    | converged hok hsame =>
      rw [hsame]
      exact ⟨Nat.le_succ_of_le ih.1, fun hnot ↦ absurd hok (hnot _)⟩
    | extended hstopped _ hevents _ =>
      have hsize := ih.2 fun stats hok ↦ by simp [hstopped] at hok
      rw [hevents, Array.size_push, hsize]
      exact ⟨Nat.le_refl _, fun _ ↦ rfl⟩

theorem solveFrom_of_le (hg : g.WellFormed) {stats : Stats}
    (hok : (a.solveFrom strategy g n start).outcome = .ok stats) (hle : n ≤ m) :
    a.solveFrom strategy g m start = a.solveFrom strategy g n start := by
  induction hle with
  | refl => rfl
  | @step m hle ih =>
    cases continues_solveFrom (a := a) hg strategy m start with
    | converged _ hsame => rw [hsame, ih]
    | extended hstopped =>
      rw [ih, hok] at hstopped
      cases hstopped

/-- The events under a limit are the first of those under a larger one. -/
theorem events_solveFrom_of_le (hg : g.WellFormed) (strategy : Strategy) (start : Facts L)
    (hle : n ≤ m) :
    (a.solveFrom strategy g n start).events = (a.solveFrom strategy g m start).events.take n := by
  induction hle with
  | refl =>
    have hsize := (size_events_solveFrom (a := a) hg strategy n start).1
    rw [Array.take_eq_extract, Array.extract_eq_self_of_le hsize]
  | @step m hle ih =>
    cases continues_solveFrom (a := a) hg strategy m start with
    | converged _ hsame => rw [hsame, ih]
    | extended hstopped _ hevents _ =>
      have hsize := (size_events_solveFrom (a := a) hg strategy m start).2
        fun stats hok ↦ by simp [hstopped] at hok
      rw [hevents, ih, Array.take_eq_extract, Array.take_eq_extract, Array.extract_push,
        if_pos (hsize.symm ▸ hle)]

theorem iteration_events_solveFrom (hg : g.WellFormed) (strategy : Strategy) (n : Nat)
    (start : Facts L) :
    (a.solveFrom strategy g n start).events.toList.map Event.iteration =
      List.range' 1 (a.solveFrom strategy g n start).events.size := by
  induction n with
  | zero => simp [events_solveFrom_zero]
  | succ n ih =>
    cases continues_solveFrom (a := a) hg strategy n start with
    | converged _ hsame => rw [hsame, ih]
    | extended _ hnumber hevents _ =>
      rw [hevents, Array.toList_push, List.map_append, ih, List.map_singleton, hnumber,
        Array.size_push, List.range'_1_concat, Nat.add_comm 1]

/-- The facts of a run are those that its events leave. -/
theorem facts_solveFrom_eq_replay (hg : g.WellFormed) (hblocks : g.isEmpty = false)
    (strategy : Strategy) (n : Nat) (start : Facts L) :
    (a.solveFrom strategy g n start).facts =
      (a.solveFrom strategy g n start).events.foldl (a.replay g) (start.fit g a.initial) := by
  induction n with
  | zero =>
    rw [events_solveFrom_zero]
    cases strategy with
    | naive =>
      rw [solveFrom, facts_solveNaive hblocks]
      rfl
    | worklist =>
      rw [solveFrom, facts_solveWorklist hblocks]
      rfl
  | succ n ih =>
    cases continues_solveFrom (a := a) hg strategy n start with
    | converged _ hsame => rw [hsame, ih]
    | extended _ _ hevents hfacts => rw [hfacts, hevents, Array.foldl_push, ih]

/-! ### Converged runs and their truncations -/

/-- What becomes of a run of `k` iterations under the limit `l`. -/
structure Truncates (a : Analysis L) (g : FlowGraph) (strategy : Strategy) (start : Facts L)
    (run : Run L) (k l : Nat) : Prop where
  ok_iff : (∃ stats, (a.solveFrom strategy g l start).outcome = .ok stats) ↔ k ≤ l
  same : k ≤ l → a.solveFrom strategy g l start = run
  stopped : l < k → a.solveFrom strategy g l start =
    { facts := (run.events.take l).foldl (a.replay g) (start.fit g a.initial)
      events := run.events.take l
      outcome := .error ⟨a.name, strategy, l⟩ }

/-- A run that converged did so as soon as its iterations were allowed. -/
theorem exists_ok_of_iterations (hg : g.WellFormed) {stats : Stats}
    (hok : (a.solveFrom strategy g n start).outcome = .ok stats) :
    ∃ stats', (a.solveFrom strategy g (a.solveFrom strategy g n start).events.size start).outcome =
      .ok stats' := by
  set k := (a.solveFrom strategy g n start).events.size with hk
  by_contra hnot
  rw [not_exists] at hnot
  have hle : k ≤ n := (size_events_solveFrom hg strategy n start).1
  have hlt : k < n := Nat.lt_of_le_of_ne hle fun heq ↦ hnot stats (heq ▸ hok)
  have hnext := congrArg Array.size
    (events_solveFrom_of_le (a := a) hg strategy start (Nat.succ_le_of_lt hlt))
  cases continues_solveFrom (a := a) hg strategy k start with
  | converged hok' => exact hnot _ hok'
  | extended _ _ hevents _ =>
    rw [hevents, Array.size_push, (size_events_solveFrom hg strategy k start).2 hnot,
      Array.take_eq_extract, Array.size_extract, ← hk] at hnext
    omega

theorem truncates_solveFrom (hg : g.WellFormed) {stats : Stats}
    (hok : (a.solveFrom strategy g n start).outcome = .ok stats) (l : Nat) :
    a.Truncates g strategy start (a.solveFrom strategy g n start)
      (a.solveFrom strategy g n start).events.size l := by
  obtain ⟨stats', hok'⟩ := exists_ok_of_iterations hg hok
  have hle := (size_events_solveFrom (a := a) hg strategy n start).1
  have hsame := solveFrom_of_le hg hok' hle
  have hstopped : ∀ stats, l < (a.solveFrom strategy g n start).events.size →
      (a.solveFrom strategy g l start).outcome ≠ .ok stats := by
    intro stats hlt hearly
    have hsize := (size_events_solveFrom (a := a) hg strategy l start).1
    rw [← solveFrom_of_le hg hearly (Nat.le_trans (Nat.le_of_lt hlt) hle)] at hsize
    omega
  refine ⟨⟨fun ⟨early, hearly⟩ ↦ ?_, fun hl ↦ ?_⟩, fun hl ↦ ?_, fun hl ↦ ?_⟩
  · by_contra hlt
    exact hstopped early (Nat.lt_of_not_le hlt) hearly
  · exact ⟨stats', by rw [solveFrom_of_le hg hok' hl, hok']⟩
  · rw [solveFrom_of_le hg hok' hl, ← hsame]
  · have hblocks : g.isEmpty = false := by
      by_contra hempty
      refine hstopped ⟨strategy, 0, 0⟩ hl ?_
      cases strategy <;> simp_all [solveFrom, solveNaive, solveWorklist]
    have hevents := events_solveFrom_of_le (a := a) hg strategy start
      (Nat.le_trans (Nat.le_of_lt hl) hle)
    have hfacts := facts_solveFrom_eq_replay (a := a) hg hblocks strategy l start
    rw [hevents] at hfacts
    rcases outcome_solveFrom (a := a) hg strategy l start with ⟨visits, hearly⟩ | herror
    · exact absurd hearly (hstopped _ hl)
    · rw [← hfacts, ← hevents, ← herror]

/-- What the events of a run with a limit tell. They are numbered from one, as many as there were
iterations. A sweep that changed nothing was the last one. The worklist solver first visited each
block once, in order, as far as the limit allowed; so it converges only if the limit allows that. -/
structure Logged (a : Analysis L) (g : FlowGraph) (strategy : Strategy) (limit : Nat)
    (run : Run L) : Prop where
  numbered : run.events.toList.map Event.iteration = List.range' 1 run.events.size
  counted : ∀ stats, run.outcome = .ok stats → run.events.size = stats.iterations
  stopped : ∀ e, run.outcome = .error e →
    e = ⟨a.name, strategy, limit⟩ ∧ run.events.size = limit
  changed : strategy = .naive → ∀ i event, run.events[i]? = some event →
    (event.changed = false ↔ (∃ stats, run.outcome = .ok stats) ∧ i + 1 = run.events.size)
  ordered : strategy = .worklist → (run.events.toList.map Event.block).take g.blockCount =
    ((a.direction.order g).take limit).map some
  enough : strategy = .worklist → ∀ stats, run.outcome = .ok stats → g.blockCount ≤ limit

theorem changed_solveNaive (n : Nat) (start : Facts L) {i : Nat} {event : Event}
    (h : (a.solveNaive g n start).events[i]? = some event) :
    event.changed = false ↔ (∃ stats, (a.solveNaive g n start).outcome = .ok stats) ∧
      i + 1 = (a.solveNaive g n start).events.size := by
  cases hblocks : g.isEmpty with
  | true => simp [solveNaive, hblocks] at h
  | false =>
    rw [solveNaive_eq hblocks] at h ⊢
    rw [changed_lastSweep h]
    by_cases hsettled : (a.lastSweep g n start).settled = true <;> simp [hsettled]

/-- The visits begin with one of each block, in order, unless the limit cuts them. -/
theorem ordered_solveWorklist (hg : g.WellFormed) (n : Nat) (start : Facts L) :
    ((a.solveWorklist g n start).events.toList.map Event.block).take g.blockCount =
      ((a.direction.order g).take n).map some := by
  obtain ⟨hle, hstopped⟩ := size_events_solveFrom (a := a) hg .worklist n start
  rw [solveFrom] at hle hstopped
  cases hblocks : g.isEmpty with
  | true =>
    have hcount := FlowGraph.blockCount_of_isEmpty hblocks
    have horder : a.direction.order g = [] :=
      List.length_eq_zero_iff.mp ((length_order a.direction).trans hcount)
    simp [hcount, horder]
  | false =>
    simp only [solveWorklist_eq hblocks] at hle hstopped ⊢
    have hprefix := (accounted_lastRevisit (a := a) hg n start).ordered
    set visited := (a.lastRevisit g n start).events.toList.map Event.block
    have hlength : visited.length = (a.lastRevisit g n start).events.size := by simp [visited]
    have hall := List.prefix_iff_eq_take.mp hprefix
    rw [List.length_map, length_order] at hall
    -- of what still waits nothing falls within the limit
    have hnone : ((a.lastRevisit g n start).work.queue.map some).take
        (min n g.blockCount - visited.length) = [] := by
      by_cases hdone : (a.lastRevisit g n start).work.queue.isEmpty = true
      · simp [List.isEmpty_iff.mp hdone]
      · have hsize := hstopped fun stats hok ↦ by simp [hdone] at hok
        rw [hlength, hsize, Nat.sub_eq_zero_of_le (Nat.min_le_left _ _), List.take_zero]
    rw [List.map_take, hall, List.take_take, List.take_append, hnone, List.append_nil,
      List.take_eq_take_iff, hlength]
    omega

theorem blockCount_le_of_solveWorklist_ok (hg : g.WellFormed) {stats : Stats}
    (hok : (a.solveWorklist g n start).outcome = .ok stats) : g.blockCount ≤ n := by
  cases hblocks : g.isEmpty with
  | true =>
    rw [FlowGraph.blockCount_of_isEmpty hblocks]
    exact Nat.zero_le n
  | false =>
    have hprefix := (accounted_lastRevisit (a := a) hg n start).ordered.length_le
    have hle := (size_events_solveFrom (a := a) hg .worklist n start).1
    rw [solveFrom, solveWorklist_eq hblocks] at hle
    rw [queue_of_solveWorklist_ok hblocks hok] at hprefix
    rw [List.length_map, length_order, List.map_nil, List.append_nil, List.length_map,
      Array.length_toList] at hprefix
    exact Nat.le_trans hprefix hle

theorem logged_solveFrom (hg : g.WellFormed) (strategy : Strategy) (n : Nat) (start : Facts L) :
    a.Logged g strategy n (a.solveFrom strategy g n start) := by
  have houtcome := outcome_solveFrom (a := a) hg strategy n start
  refine ⟨iteration_events_solveFrom hg strategy n start, fun stats hok ↦ ?_, fun e herror ↦ ?_,
    ?_, ?_, ?_⟩
  · rcases houtcome with ⟨visits, houtcome⟩ | houtcome
    · obtain rfl := Except.ok.inj (hok.symm.trans houtcome)
      rfl
    · simp [hok] at houtcome
  · refine ⟨?_, (size_events_solveFrom hg strategy n start).2 fun stats hok ↦ by
      simp [herror] at hok⟩
    rcases houtcome with ⟨visits, houtcome⟩ | houtcome
    · simp [herror] at houtcome
    · exact Except.error.inj (herror.symm.trans houtcome)
  · rintro rfl i event h
    exact changed_solveNaive n start h
  · rintro rfl
    exact ordered_solveWorklist hg n start
  · rintro rfl stats hok
    exact blockCount_le_of_solveWorklist_ok hg hok

/-- On a built graph, a run that converges is the same under every limit that allows its iterations,
and any other limit leaves an error, the first events and the facts that these leave. Whether runs
converge or not, the events under a limit are the first of those under a larger one, and they are
logged as they should. -/
theorem limit_truncates_runs {d : Draft} (hbuild : d.build = .ok g) (a : Analysis L)
    (strategy : Strategy) (start : Facts L) :
    (∀ limit stats, (a.solveFrom strategy g limit start).outcome = .ok stats → ∀ l,
        a.Truncates g strategy start (a.solveFrom strategy g limit start) stats.iterations l) ∧
      (∀ l limit, l ≤ limit → (a.solveFrom strategy g l start).events =
        (a.solveFrom strategy g limit start).events.take l) ∧
      ∀ limit, a.Logged g strategy limit (a.solveFrom strategy g limit start) := by
  have hg := d.wellFormed_of_build hbuild
  have hlogged := fun limit ↦ logged_solveFrom (a := a) hg strategy limit start
  refine ⟨fun limit stats hok l ↦ ?_, fun l limit hle ↦
    events_solveFrom_of_le hg strategy start hle, hlogged⟩
  rw [← (hlogged limit).counted stats hok]
  exact truncates_solveFrom hg hok l

/-- Counting over a self loop takes eight visits. Five of them leave the first five events, and a
limit below the number of blocks is never enough. -/
theorem limit_truncates_runs_selfLoop :
    let a := Counting.analysis { cap := 3 } .forward
    let g := Draft.selfLoop.toFlowGraph
    let start : Facts Nat :=
      { blockIn := #[7], blockOut := #[], instrIn := #[1, 2], instrOut := #[9] }
    let run := a.solveFrom .worklist g 40 start
    run.outcome = .ok ⟨.worklist, 8, 8⟩ ∧
      (∀ l, 8 ≤ l → a.solveFrom .worklist g l start = run) ∧
      (a.solveFrom .worklist g 5 start).outcome = .error ⟨"CountForward", .worklist, 5⟩ ∧
      (a.solveFrom .worklist g 5 start).events = run.events.take 5 ∧
      (run.events.toList.map Event.block).take 4 = [some 0, some 1, some 2, some 3] ∧
      ∀ stats, (a.solveFrom .worklist g 3 start).outcome ≠ .ok stats := by
  intro a g start run
  have hok : run.outcome = .ok ⟨.worklist, 8, 8⟩ := by decide +kernel
  have hbuild : Draft.selfLoop.build = .ok g := rfl
  obtain ⟨htruncates, -, hlogged⟩ := limit_truncates_runs hbuild a .worklist start
  have hshort := (htruncates 40 _ hok 5).stopped (by decide)
  refine ⟨hok, fun l hl ↦ (htruncates 40 _ hok l).same hl, by rw [hshort]; rfl, by rw [hshort],
    (hlogged 40).ordered rfl, fun stats h ↦ ?_⟩
  exact absurd ((hlogged 3).enough rfl stats h) (by decide)

end Analysis

end FlowFacts

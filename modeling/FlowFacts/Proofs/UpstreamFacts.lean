import FlowFacts.Proofs.AcyclicConvergence

/-!
Facts depend on upstream code only. Take a set of blocks that facts enter from the set alone, and
two analyses that may differ in what they do to the instructions of other blocks. A visit of a block
of the set does the same on both sides, and a visit of another block leaves the set as it is. The
runs are not in step: one side may settle long before the other, and then further sweeps of the
other repeat what the set holds already. Along the worklist the blocks of the set wait in the same
order on both sides, with other blocks anywhere between them.
-/

set_option autoImplicit false
set_option relaxedAutoImplicit false

namespace FlowFacts

/-! ### Loops out of step -/

section Stuttering

variable {σ τ : Type} {done : σ → Bool} {done' : τ → Bool} {step : σ → σ} {step' : τ → τ}

theorem iterateUntil_of_done {s : σ} (h : done s = true) (limit : Nat) :
    iterateUntil done step limit s = s := by
  cases limit with
  | zero => rfl
  | succ limit => rw [iterateUntil, if_pos h]

/-- A loop that has something to do and gets done takes a step first. -/
theorem iterateUntil_of_not_done {s : σ} {limit : Nat} (h : done s = false)
    (hdone : done (iterateUntil done step limit s) = true) :
    ∃ rest, limit = rest + 1 ∧
      iterateUntil done step limit s = iterateUntil done step rest (step s) := by
  cases limit with
  | zero =>
    rw [iterateUntil, h] at hdone
    cases hdone
  | succ rest => exact ⟨rest, rfl, by rw [iterateUntil, h]; rfl⟩

/-- Two loops are done, or some of those that are not take a step that ends related. -/
inductive Advances (done : σ → Bool) (step : σ → σ) (done' : τ → Bool) (step' : τ → τ)
    (Related : σ → τ → Prop) (s : σ) (t : τ) : Prop
  | done (hs : done s = true) (ht : done' t = true)
  | left (hs : done s = false) (hnext : Related (step s) t)
  | right (ht : done' t = false) (hnext : Related s (step' t))
  | both (hs : done s = false) (ht : done' t = false) (hnext : Related (step s) (step' t))

/-- Two loops that get done end related if they can advance wherever they are related. -/
theorem iterateUntil_stuttering {Related : σ → τ → Prop}
    (hadvance : ∀ s t, Related s t → Advances done step done' step' Related s t)
    {limit limit' : Nat} {s : σ} {t : τ} (h : Related s t)
    (hdone : done (iterateUntil done step limit s) = true)
    (hdone' : done' (iterateUntil done' step' limit' t) = true) :
    Related (iterateUntil done step limit s) (iterateUntil done' step' limit' t) := by
  -- on the number of steps that both loops may still take
  induction htotal : limit + limit' using Nat.strong_induction_on
    generalizing limit limit' s t with
  | _ total ih =>
    cases hadvance s t h with
    | done hs ht => rwa [iterateUntil_of_done hs, iterateUntil_of_done ht]
    | left hs hnext =>
      obtain ⟨rest, rfl, hrun⟩ := iterateUntil_of_not_done hs hdone
      rw [hrun] at hdone ⊢
      exact ih (rest + limit') (by omega) hnext hdone hdone' rfl
    | right ht hnext =>
      obtain ⟨rest, rfl, hrun⟩ := iterateUntil_of_not_done ht hdone'
      rw [hrun] at hdone' ⊢
      exact ih (limit + rest) (by omega) hnext hdone hdone' rfl
    | both hs ht hnext =>
      obtain ⟨rest, rfl, hrun⟩ := iterateUntil_of_not_done hs hdone
      obtain ⟨rest', rfl, hrun'⟩ := iterateUntil_of_not_done ht hdone'
      rw [hrun] at hdone ⊢
      rw [hrun'] at hdone' ⊢
      exact ih (rest + rest') (by omega) hnext hdone hdone' rfl

end Stuttering

/-! ### Closed sets and agreement on them -/

variable {g : FlowGraph} {S : Set Nat}

namespace Direction

variable {direction : Direction} {b : Nat} {block : Block}

/-- The set holds with a block all those that its facts come from: its predecessors going forward,
its successors going backward. -/
def ClosedUpstream (direction : Direction) (g : FlowGraph) (S : Set Nat) : Prop :=
  match direction with
  | forward => ∀ b ∈ S, ∀ source ∈ g.preds b, source ∈ S
  | backward => ∀ b ∈ S, ∀ source ∈ g.succs b, source ∈ S

theorem ClosedUpstream.mem_of_source (h : direction.ClosedUpstream g S)
    (hb : g.block? b = some block) (hmem : b ∈ S) {source : Nat}
    (hsource : source ∈ direction.sources block) : source ∈ S := by
  rw [sources_of_block? direction hb] at hsource
  cases direction with
  | forward => exact h b hmem source hsource
  | backward => exact h b hmem source hsource

/-- The facts of a block outside the set go outside. -/
theorem ClosedUpstream.notMem_of_target (hg : g.WellFormed) (h : direction.ClosedUpstream g S)
    (hb : g.block? b = some block) (hmem : b ∉ S) {target : Nat}
    (htarget : target ∈ direction.targets block) : target ∉ S := by
  obtain ⟨other, hother, hsource⟩ := feeds_of_mem_targets hg hb htarget
  exact fun hinside ↦ hmem (h.mem_of_source hother hinside hsource)

end Direction

variable {L : Type} [BEq L]

instance equivBEqOption [EquivBEq L] : EquivBEq (Option L) where
  symm {x y} h := by
    cases x with
    | none =>
      cases y with
      | none => rfl
      | some y => cases h
    | some x =>
      cases y with
      | none => cases h
      | some y =>
        rw [Option.some_beq_some] at h ⊢
        exact BEq.symm h
  trans {x y z} h h' := by
    cases y with
    | none =>
      cases x with
      | none => exact h'
      | some x => cases h
    | some y =>
      cases x with
      | none => cases h
      | some x =>
        cases z with
        | none => cases h'
        | some z =>
          rw [Option.some_beq_some] at h h' ⊢
          exact BEq.trans h h'

theorem getD_beq [EquivBEq L] {items items' : Array L} {n : Nat} (h : items[n]? == items'[n]?)
    (initial : L) : items.getD n initial == items'.getD n initial := by
  rw [Array.getD_eq_getD_getElem?, Array.getD_eq_getD_getElem?]
  generalize items[n]? = x at h
  generalize items'[n]? = y at h
  cases x with
  | none =>
    cases y with
    | none => exact BEq.rfl
    | some y => cases h
  | some x =>
    cases y with
    | none => cases h
    | some y => exact h

namespace Facts

/-- Equal records of a block and of its instructions. -/
structure AgreesAt (facts facts' : Facts L) (b : Nat) (block : Block) : Prop where
  blockIn : facts.blockIn[b]? == facts'.blockIn[b]?
  blockOut : facts.blockOut[b]? == facts'.blockOut[b]?
  instrs : ∀ i ∈ block.instrs, facts.instrIn[i.id]? == facts'.instrIn[i.id]? ∧
    facts.instrOut[i.id]? == facts'.instrOut[i.id]?

theorem agreesAt_iff {facts facts' : Facts L} {b : Nat} {block : Block} (direction : Direction) :
    facts.AgreesAt facts' b block ↔
      (facts.blockEnter direction)[b]? == (facts'.blockEnter direction)[b]? ∧
      (facts.blockLeave direction)[b]? == (facts'.blockLeave direction)[b]? ∧
      ∀ i ∈ block.instrs,
        (facts.instrEnter direction)[i.id]? == (facts'.instrEnter direction)[i.id]? ∧
          (facts.instrLeave direction)[i.id]? == (facts'.instrLeave direction)[i.id]? := by
  cases direction with
  | forward => exact ⟨fun h ↦ ⟨h.1, h.2, h.3⟩, fun h ↦ ⟨h.1, h.2.1, h.2.2⟩⟩
  | backward =>
    exact ⟨fun h ↦ ⟨h.2, h.1, fun i hi ↦ (h.3 i hi).symm⟩,
      fun h ↦ ⟨h.2.1, h.1, fun i hi ↦ (h.2.2 i hi).symm⟩⟩

theorem AgreesAt.enter {facts facts' : Facts L} {b : Nat} {block : Block}
    (h : facts.AgreesAt facts' b block) (direction : Direction) :
    (facts.blockEnter direction)[b]? == (facts'.blockEnter direction)[b]? :=
  ((agreesAt_iff direction).mp h).1

theorem AgreesAt.leave {facts facts' : Facts L} {b : Nat} {block : Block}
    (h : facts.AgreesAt facts' b block) (direction : Direction) :
    (facts.blockLeave direction)[b]? == (facts'.blockLeave direction)[b]? :=
  ((agreesAt_iff direction).mp h).2.1

def AgreesOn (facts facts' : Facts L) (g : FlowGraph) (S : Set Nat) : Prop :=
  ∀ ⦃b : Nat⦄ ⦃block : Block⦄, g.block? b = some block → b ∈ S → facts.AgreesAt facts' b block

variable [EquivBEq L] {facts facts' : Facts L} {b : Nat} {block : Block}

theorem agreesAt_refl (facts : Facts L) (b : Nat) (block : Block) : facts.AgreesAt facts b block :=
  ⟨BEq.rfl, BEq.rfl, fun _ _ ↦ ⟨BEq.rfl, BEq.rfl⟩⟩

theorem AgreesAt.symm (h : facts.AgreesAt facts' b block) : facts'.AgreesAt facts b block :=
  ⟨BEq.symm h.blockIn, BEq.symm h.blockOut, fun i hi ↦
    ⟨BEq.symm (h.instrs i hi).1, BEq.symm (h.instrs i hi).2⟩⟩

theorem AgreesOn.symm (h : facts.AgreesOn facts' g S) : facts'.AgreesOn facts g S :=
  fun _ _ hb hmem ↦ (h hb hmem).symm

end Facts

namespace Analysis

/-- Two analyses that share direction, initial fact and meet, and agree on the instructions of some
blocks. -/
structure AgreesOn (a o : Analysis L) (g : FlowGraph) (S : Set Nat) : Prop where
  direction : a.direction = o.direction
  initial : a.initial = o.initial
  meet : a.meet = o.meet
  transfer : ∀ {b : Nat} {block : Block} {i : Instr}, g.block? b = some block → b ∈ S →
    i ∈ block.instrs → ∀ x, a.transfer i x == o.transfer i x

variable {a o : Analysis L} {b c : Nat} {block other : Block} {facts facts' : Facts L}

theorem AgreesOn.gather_eq (h : a.AgreesOn o g S) (facts : Facts L) (block : Block) :
    a.gather facts block = o.gather facts block := by
  rw [gather, gather, h.direction, h.initial, h.meet]

variable [EquivBEq L]

theorem AgreesOn.symm (h : a.AgreesOn o g S) : o.AgreesOn a g S :=
  ⟨h.direction.symm, h.initial.symm, h.meet.symm, fun hb hmem hi x ↦
    BEq.symm (h.transfer hb hmem hi x)⟩

/-! ### Visits on both sides -/

/-- Equal facts taken through instructions on which the transfers agree leave equal records. -/
theorem Threaded.beq (ha : a.Respectful) {path : List Instr}
    (hsame : ∀ i ∈ path, ∀ x, a.transfer i x == o.transfer i x) {x x' y y' : L}
    (h : a.Threaded facts path x y) (h' : o.Threaded facts' path x' y') (hx : x == x') :
    y == y' ∧ ∀ i ∈ path,
      (facts.instrEnter a.direction)[i.id]? == (facts'.instrEnter o.direction)[i.id]? ∧
        (facts.instrLeave a.direction)[i.id]? == (facts'.instrLeave o.direction)[i.id]? := by
  induction path generalizing x x' with
  | nil =>
    obtain rfl : x = y := h
    obtain rfl : x' = y' := h'
    exact ⟨hx, fun _ hi ↦ absurd hi List.not_mem_nil⟩
  | cons i rest ih =>
    obtain ⟨henter, hleave, hrest⟩ := h
    obtain ⟨henter', hleave', hrest'⟩ := h'
    rw [List.forall_mem_cons] at hsame ⊢
    have hnext : a.transfer i x == o.transfer i x' :=
      BEq.trans (ha.transfer_congr i hx) (hsame.1 x')
    obtain ⟨hy, hrecords⟩ := ih hsame.2 hrest hrest' hnext
    refine ⟨hy, ⟨?_, ?_⟩, hrecords⟩
    · rw [henter, henter', Option.some_beq_some]
      exact hx
    · rw [hleave, hleave', Option.some_beq_some]
      exact hnext

omit [EquivBEq L] in
theorem AgreesOn.transfer_path (h : a.AgreesOn o g S) (hb : g.block? b = some block)
    (hmem : b ∈ S) : ∀ i ∈ a.direction.path block, ∀ x, a.transfer i x == o.transfer i x :=
  fun _ hi ↦ h.transfer hb hmem (Direction.mem_path.mp hi)

theorem Recorded.agreesAt (ha : a.Respectful) (h : a.AgreesOn o g S)
    (hb : g.block? b = some block) (hmem : b ∈ S) {x x' : L} (hrec : a.Recorded facts b block x)
    (hrec' : o.Recorded facts' b block x') (hx : x == x') : facts.AgreesAt facts' b block := by
  obtain ⟨y, henter, hthreaded, hleave⟩ := hrec
  obtain ⟨y', henter', hthreaded', hleave'⟩ := hrec'
  rw [← h.direction] at henter' hthreaded' hleave'
  obtain ⟨hy, hrecords⟩ := hthreaded.beq ha (h.transfer_path hb hmem) hthreaded' hx
  rw [← h.direction] at hrecords
  refine (Facts.agreesAt_iff a.direction).mpr
    ⟨?_, ?_, fun i hi ↦ hrecords i (Direction.mem_path.mpr hi)⟩
  · rw [henter, henter', Option.some_beq_some]
    exact hx
  · rw [hleave, hleave', Option.some_beq_some]
    exact hy

/-- What enters a block of the set comes from the set. -/
theorem AgreesOn.gather_beq (hg : g.WellFormed) (ha : a.Respectful) (h : a.AgreesOn o g S)
    (hclosed : a.direction.ClosedUpstream g S) (hfacts : facts.AgreesOn facts' g S)
    (hb : g.block? b = some block) (hmem : b ∈ S) :
    a.gather facts block == o.gather facts' block := by
  rw [← h.gather_eq]
  refine gather_congr ha fun s hs ↦ ?_
  obtain ⟨source, hsource⟩ := FlowGraph.exists_block?_of_lt (a.direction.source_lt hg hb hs)
  exact (hfacts hsource (hclosed.mem_of_source hb hmem hs)).leave a.direction

omit [EquivBEq L] in
theorem visit_agreesAt_of_ne (hg : g.WellFormed) (hb : g.block? b = some block)
    (hc : g.block? c = some other) (hne : c ≠ b) (h : facts.AgreesAt facts' c other) :
    (a.visit b block facts).1.AgreesAt facts' c other := by
  refine (Facts.agreesAt_iff a.direction).mpr ⟨?_, ?_, fun i hi ↦ ?_⟩
  · rw [visit_blockEnter, Array.getElem?_setIfInBounds_ne (Ne.symm hne)]
    exact h.enter a.direction
  · rw [visit_blockLeave, Array.getElem?_setIfInBounds_ne (Ne.symm hne)]
    exact h.leave a.direction
  · have hpath : i ∈ a.direction.path other := Direction.mem_path.mpr hi
    obtain ⟨henter, hleave⟩ := visit_instr_of_ne hg hb hc hne facts hpath
    rw [henter, hleave]
    exact ((Facts.agreesAt_iff a.direction).mp h).2.2 i hi

omit [EquivBEq L] in
/-- A visit on one side keeps the agreement if it keeps it at its block. -/
theorem visit_agreesOn (hg : g.WellFormed) (hb : g.block? b = some block)
    (hfacts : facts.AgreesOn facts' g S)
    (hvisited : b ∈ S → (a.visit b block facts).1.AgreesAt facts' b block) :
    (a.visit b block facts).1.AgreesOn facts' g S := by
  intro c other hc hmem
  by_cases hcb : c = b
  · subst hcb
    obtain rfl : block = other := Option.some.inj (hb.symm.trans hc)
    exact hvisited hmem
  · exact visit_agreesAt_of_ne hg hb hc hcb (hfacts hc hmem)

section BothSides

variable (hg : g.WellFormed) (ha : a.Respectful) (h : a.AgreesOn o g S)
  (hclosed : a.direction.ClosedUpstream g S)

include hg ha h hclosed

theorem AgreesOn.visit (hfits : facts.Fits g) (hfits' : facts'.Fits g)
    (hfacts : facts.AgreesOn facts' g S) (hb : g.block? b = some block) :
    (a.visit b block facts).1.AgreesOn (o.visit b block facts').1 g S := by
  intro c other hc hmem
  by_cases hcb : c = b
  · subst hcb
    obtain rfl : block = other := Option.some.inj (hb.symm.trans hc)
    exact (recorded_visit hg hb hfits).agreesAt ha h hb hmem (recorded_visit hg hb hfits')
      (h.gather_beq hg ha hclosed hfacts hb hmem)
  · have hright := visit_agreesAt_of_ne (a := o) hg hb hc hcb (hfacts hc hmem).symm
    exact visit_agreesAt_of_ne hg hb hc hcb hright.symm

theorem AgreesOn.visit_changed (hfits : facts.Fits g) (hfits' : facts'.Fits g)
    (hfacts : facts.AgreesOn facts' g S) (hb : g.block? b = some block) (hmem : b ∈ S) :
    (a.visit b block facts).2 = (o.visit b block facts').2 := by
  have hentering := h.gather_beq hg ha hclosed hfacts hb hmem
  have hthreaded' := threaded_visit (a := o) hg hb hfits'
  rw [← h.direction] at hthreaded'
  obtain ⟨hleaving, -⟩ :=
    (threaded_visit hg hb hfits).beq ha (h.transfer_path hb hmem) hthreaded' hentering
  rw [← Option.some_beq_some] at hentering hleaving
  rw [Analysis.visit_changed, Analysis.visit_changed, ← h.direction, BEq.congr_left hentering,
    BEq.congr_right ((hfacts hb hmem).enter a.direction), BEq.congr_left hleaving,
    BEq.congr_right ((hfacts hb hmem).leave a.direction)]

/-! ### Sweeps -/

theorem AgreesOn.sweep (hfits : facts.Fits g) (hfits' : facts'.Fits g)
    (hfacts : facts.AgreesOn facts' g S) :
    (a.sweep g facts).1.AgreesOn (o.sweep g facts').1 g S := by
  rw [Analysis.sweep, Analysis.sweep, ← h.direction]
  refine (List.foldl_rel (r := fun state state' : Facts L × Bool ↦
    state.1.Fits g ∧ state'.1.Fits g ∧ state.1.AgreesOn state'.1 g S) ⟨hfits, hfits', hfacts⟩
    fun b _ state state' hstates ↦ ?_).2.2
  cases hb : g.block? b with
  | none => simpa only [sweepBlock, hb] using hstates
  | some block =>
    obtain ⟨hfits, hfits', hfacts⟩ := hstates
    simp only [sweepBlock, hb]
    exact ⟨fits_visit hfits b block, fits_visit hfits' b block,
      h.visit hg ha hclosed hfits hfits' hfacts hb⟩

/-- A sweep of one side repeats what the set holds if the other side has settled. -/
theorem AgreesOn.sweep_of_consistent
    (hsettled : ∀ {b : Nat} {block : Block}, g.block? b = some block →
      o.Consistent facts' b block)
    (hfits : facts.Fits g) (hfacts : facts.AgreesOn facts' g S) :
    (a.sweep g facts).1.AgreesOn facts' g S := by
  refine (sweep_preserves (P := fun facts : Facts L ↦ facts.Fits g ∧ facts.AgreesOn facts' g S)
    (fun {b block facts} hb hstate ↦ ?_) ⟨hfits, hfacts⟩).2
  obtain ⟨hfits, hfacts⟩ := hstate
  refine ⟨fits_visit hfits b block, visit_agreesOn hg hb hfacts fun hmem ↦ ?_⟩
  obtain ⟨x, y, henter, hthreaded, hleave, hx⟩ := hsettled hb
  exact (recorded_visit hg hb hfits).agreesAt ha h hb hmem ⟨y, henter, hthreaded, hleave⟩
    (BEq.trans (h.gather_beq hg ha hclosed hfacts hb hmem) (BEq.symm hx))

end BothSides

/-- Two sweeping solvers, each between two sweeps, that agree on the set. -/
structure SweepsAgree (a o : Analysis L) (g : FlowGraph) (S : Set Nat) (s s' : Sweeping L) :
    Prop where
  swept : a.Swept g s
  swept' : o.Swept g s'
  facts : s.facts.AgreesOn s'.facts g S

/-- Sides that have not settled sweep together, and the later one goes on alone. -/
theorem sweepStep_advances (hg : g.WellFormed) (ha : a.Respectful) (ho : o.Respectful)
    (h : a.AgreesOn o g S) (hclosed : a.direction.ClosedUpstream g S) {s s' : Sweeping L}
    (hs : a.SweepsAgree o g S s s') :
    Advances Sweeping.settled (a.sweepStep g) Sweeping.settled (o.sweepStep g)
      (a.SweepsAgree o g S) s s' := by
  have hnext := swept_sweepStep hg ha hs.swept
  have hnext' := swept_sweepStep hg ho hs.swept'
  have hclosed' : o.direction.ClosedUpstream g S := h.direction ▸ hclosed
  cases hsettled : s.settled with
  | true =>
    cases hsettled' : s'.settled with
    | true => exact .done hsettled hsettled'
    | false =>
      refine .right hsettled' ⟨hs.swept, hnext', ?_⟩
      exact (h.symm.sweep_of_consistent hg ho hclosed' (hs.swept.consistent hsettled)
        hs.swept'.fits hs.facts.symm).symm
  | false =>
    cases hsettled' : s'.settled with
    | true =>
      refine .left hsettled ⟨hnext, hs.swept', ?_⟩
      exact h.sweep_of_consistent hg ha hclosed (hs.swept'.consistent hsettled') hs.swept.fits
        hs.facts
    | false =>
      refine .both hsettled hsettled' ⟨hnext, hnext', ?_⟩
      exact h.sweep hg ha hclosed hs.swept.fits hs.swept'.fits hs.facts

end Analysis

/-! ### Worklists -/

namespace Worklist

variable [DecidablePred (· ∈ S)] {w w' rest rest' : Worklist} {b c : Nat} {targets : List Nat}

/-- Queueing other blocks leaves the blocks of the set as they wait. -/
theorem filter_foldl_push (htargets : ∀ t ∈ targets, t ∉ S) (w : Worklist) :
    (targets.foldl Worklist.push w).queue.filter (· ∈ S) = w.queue.filter (· ∈ S) := by
  obtain ⟨added, hadded, hqueue⟩ := queue_foldl_push targets w
  have hnone : added.filter (· ∈ S) = [] :=
    List.filter_eq_nil_iff.mpr fun t ht ↦ by simpa using htargets t (hadded ht)
  rw [hqueue, List.filter_append, hnone, List.append_nil]

/-- The blocks of the set wait in the same order. -/
structure AlikeOn (S : Set Nat) [DecidablePred (· ∈ S)] (w w' : Worklist) : Prop where
  sound : w.Sound
  sound' : w'.Sound
  filter_eq : w.queue.filter (· ∈ S) = w'.queue.filter (· ∈ S)

namespace AlikeOn

theorem symm (h : AlikeOn S w w') : AlikeOn S w' w :=
  ⟨h.sound', h.sound, h.filter_eq.symm⟩

theorem mem_queue_iff (h : AlikeOn S w w') (hb : b ∈ S) : b ∈ w.queue ↔ b ∈ w'.queue := by
  have hfilter : b ∈ w.queue.filter (· ∈ S) ↔ b ∈ w'.queue.filter (· ∈ S) := by rw [h.filter_eq]
  simpa [List.mem_filter, hb] using hfilter

theorem foldl_push_left (h : AlikeOn S w w') (htargets : ∀ t ∈ targets, t ∉ S) :
    AlikeOn S (targets.foldl Worklist.push w) w' :=
  ⟨(sound_foldl_push h.sound targets).1, h.sound', (filter_foldl_push htargets w).trans h.filter_eq⟩

theorem push (h : AlikeOn S w w') (b : Nat) : AlikeOn S (w.push b) (w'.push b) := by
  refine ⟨h.sound.push b, h.sound'.push b, ?_⟩
  by_cases hb : b ∈ S
  · have hqueued : b ∈ w.queued ↔ b ∈ w'.queued := by
      rw [h.sound.mem_queued_iff, h.sound'.mem_queued_iff, h.mem_queue_iff hb]
    have hcontains : w.queued.contains b = w'.queued.contains b := Bool.eq_iff_iff.mpr hqueued
    rw [Worklist.push, Worklist.push, hcontains]
    split_ifs
    · exact h.filter_eq
    · rw [List.filter_append, List.filter_append, h.filter_eq]
  · have htargets : ∀ t ∈ [b], t ∉ S := fun t ht ↦ List.mem_singleton.mp ht ▸ hb
    exact (filter_foldl_push htargets w).trans
      (h.filter_eq.trans (filter_foldl_push htargets w').symm)

theorem foldl_push (h : AlikeOn S w w') (targets : List Nat) :
    AlikeOn S (targets.foldl Worklist.push w) (targets.foldl Worklist.push w') :=
  List.foldl_rel (r := AlikeOn S) h fun b _ _ _ hpushed ↦ hpushed.push b

theorem pop_left (h : AlikeOn S w w') (hpop : w.pop? = some (b, rest)) (hb : b ∉ S) :
    AlikeOn S rest w' := by
  refine ⟨h.sound.pop? hpop, h.sound', ?_⟩
  rw [← h.filter_eq, queue_of_pop? hpop, List.filter_cons_of_neg (by simpa using hb)]

theorem pop (h : AlikeOn S w w') (hpop : w.pop? = some (b, rest))
    (hpop' : w'.pop? = some (c, rest')) (hb : b ∈ S) (hc : c ∈ S) :
    b = c ∧ AlikeOn S rest rest' := by
  have hfilter := h.filter_eq
  rw [queue_of_pop? hpop, queue_of_pop? hpop', List.filter_cons_of_pos (by simpa using hb),
    List.filter_cons_of_pos (by simpa using hc)] at hfilter
  obtain ⟨hhead, hrest⟩ := List.cons.inj hfilter
  exact ⟨hhead, h.sound.pop? hpop, h.sound'.pop? hpop', hrest⟩

theorem notMem_of_pop?_eq_none (h : AlikeOn S w w') (hpop : w.pop? = some (b, rest))
    (hpop' : w'.pop? = none) : b ∉ S := by
  intro hb
  have hwaits : b ∈ w.queue := queue_of_pop? hpop ▸ List.mem_cons_self
  rw [h.mem_queue_iff hb, queue_of_pop?_eq_none hpop'] at hwaits
  cases hwaits

/-- Nothing waits, or one list starts with a block outside the set, or both start with the same
block of the set. -/
theorem pop_cases (h : AlikeOn S w w') :
    (w.pop? = none ∧ w'.pop? = none) ∨
      (∃ b rest, w.pop? = some (b, rest) ∧ b ∉ S ∧ AlikeOn S rest w') ∨
      (∃ b rest, w'.pop? = some (b, rest) ∧ b ∉ S ∧ AlikeOn S w rest) ∨
      ∃ b rest rest', w.pop? = some (b, rest) ∧ w'.pop? = some (b, rest') ∧ b ∈ S ∧
        AlikeOn S rest rest' := by
  cases hpop : w.pop? with
  | none =>
    cases hpop' : w'.pop? with
    | none => exact Or.inl ⟨rfl, rfl⟩
    | some popped =>
      obtain ⟨c, rest'⟩ := popped
      have hc : c ∉ S := h.symm.notMem_of_pop?_eq_none hpop' hpop
      exact Or.inr (Or.inr (Or.inl ⟨c, rest', rfl, hc, (h.symm.pop_left hpop' hc).symm⟩))
  | some popped =>
    obtain ⟨b, rest⟩ := popped
    by_cases hb : b ∈ S
    · cases hpop' : w'.pop? with
      | none => exact absurd hb (h.notMem_of_pop?_eq_none hpop hpop')
      | some popped =>
        obtain ⟨c, rest'⟩ := popped
        by_cases hc : c ∈ S
        · obtain ⟨rfl, hrest⟩ := h.pop hpop hpop' hb hc
          exact Or.inr (Or.inr (Or.inr ⟨b, rest, rest', rfl, rfl, hb, hrest⟩))
        · exact Or.inr (Or.inr (Or.inl ⟨c, rest', rfl, hc, (h.symm.pop_left hpop' hc).symm⟩))
    · exact Or.inr (Or.inl ⟨b, rest, rfl, hb, h.pop_left hpop hb⟩)

end AlikeOn

end Worklist

namespace Analysis

variable [EquivBEq L] {a o : Analysis L}

section Revisits

variable [DecidablePred (· ∈ S)] {s s' : Revisiting L} {b : Nat} {rest rest' : Worklist}

/-- Two worklist solvers, each between two visits, that agree on the set. -/
structure RevisitsAgree (g : FlowGraph) (S : Set Nat) [DecidablePred (· ∈ S)]
    (s s' : Revisiting L) : Prop where
  fits : s.facts.Fits g
  fits' : s'.facts.Fits g
  facts : s.facts.AgreesOn s'.facts g S
  work : Worklist.AlikeOn S s.work s'.work

theorem RevisitsAgree.symm (hs : RevisitsAgree g S s s') : RevisitsAgree g S s' s :=
  ⟨hs.fits', hs.fits, hs.facts.symm, hs.work.symm⟩

omit [EquivBEq L] in
/-- One side may visit a block outside the set on its own. -/
theorem worklistStep_outside (hg : g.WellFormed) (hclosed : a.direction.ClosedUpstream g S)
    (hs : RevisitsAgree g S s s') (hpop : s.work.pop? = some (b, rest)) (hb : b ∉ S)
    (hrest : Worklist.AlikeOn S rest s'.work) :
    RevisitsAgree g S (a.worklistStep g s) s' := by
  cases hblock : g.block? b with
  | none =>
    simp only [worklistStep, hpop, hblock]
    exact ⟨hs.fits, hs.fits', hs.facts, hrest⟩
  | some block =>
    simp only [worklistStep, hpop, hblock]
    refine ⟨fits_visit hs.fits b block, hs.fits',
      visit_agreesOn hg hblock hs.facts fun hmem ↦ absurd hmem hb, ?_⟩
    dsimp only
    split_ifs
    · exact hrest.foldl_push_left fun t ht ↦ hclosed.notMem_of_target hg hblock hb ht
    · exact hrest

/-- Both sides visit a block of the set together. -/
theorem worklistStep_inside (hg : g.WellFormed) (ha : a.Respectful) (h : a.AgreesOn o g S)
    (hclosed : a.direction.ClosedUpstream g S) (hs : RevisitsAgree g S s s')
    (hpop : s.work.pop? = some (b, rest)) (hpop' : s'.work.pop? = some (b, rest')) (hb : b ∈ S)
    (hrest : Worklist.AlikeOn S rest rest') :
    RevisitsAgree g S (a.worklistStep g s) (o.worklistStep g s') := by
  cases hblock : g.block? b with
  | none =>
    simp only [worklistStep, hpop, hpop', hblock]
    exact ⟨hs.fits, hs.fits', hs.facts, hrest⟩
  | some block =>
    have hchanged := h.visit_changed hg ha hclosed hs.fits hs.fits' hs.facts hblock hb
    simp only [worklistStep, hpop, hpop', hblock]
    refine ⟨fits_visit hs.fits b block, fits_visit hs.fits' b block,
      h.visit hg ha hclosed hs.fits hs.fits' hs.facts hblock, ?_⟩
    dsimp only
    rw [← hchanged, ← h.direction]
    split_ifs
    · exact hrest.foldl_push _
    · exact hrest

/-- Blocks outside the set are visited first, on either side; then both sides have the same block of
the set to visit. -/
theorem worklistStep_advances (hg : g.WellFormed) (ha : a.Respectful) (h : a.AgreesOn o g S)
    (hclosed : a.direction.ClosedUpstream g S) (hs : RevisitsAgree g S s s') :
    Advances (fun s ↦ s.work.queue.isEmpty) (a.worklistStep g)
      (fun s ↦ s.work.queue.isEmpty) (o.worklistStep g) (RevisitsAgree g S) s s' := by
  have hempty : ∀ {w : Worklist}, w.pop? = none → w.queue.isEmpty = true := fun hpop ↦ by
    rw [Worklist.queue_of_pop?_eq_none hpop]
    rfl
  have hwaiting : ∀ {w rest : Worklist} {b : Nat}, w.pop? = some (b, rest) →
      w.queue.isEmpty = false := fun hpop ↦ by
    rw [Worklist.queue_of_pop? hpop]
    rfl
  rcases hs.work.pop_cases with ⟨hpop, hpop'⟩ | ⟨b, rest, hpop, hb, hrest⟩ |
    ⟨b, rest, hpop, hb, hrest⟩ | ⟨b, rest, rest', hpop, hpop', hb, hrest⟩
  · exact .done (hempty hpop) (hempty hpop')
  · exact .left (hwaiting hpop) (worklistStep_outside hg hclosed hs hpop hb hrest)
  · have hclosed' : o.direction.ClosedUpstream g S := h.direction ▸ hclosed
    exact .right (hwaiting hpop)
      (worklistStep_outside hg hclosed' hs.symm hpop hb hrest.symm).symm
  · exact .both (hwaiting hpop) (hwaiting hpop')
      (worklistStep_inside hg ha h hclosed hs hpop hpop' hb hrest)

end Revisits

/-! ### Both solvers -/

section Runs

variable (hg : g.WellFormed) (ha : a.Respectful) (ho : o.Respectful) (h : a.AgreesOn o g S)
  (hclosed : a.direction.ClosedUpstream g S)

include hg ha ho h hclosed

theorem lastSweep_agreesOn {limit limit' : Nat} {start : Facts L}
    (hsettled : (a.lastSweep g limit start).settled = true)
    (hsettled' : (o.lastSweep g limit' start).settled = true) :
    (a.lastSweep g limit start).facts.AgreesOn (o.lastSweep g limit' start).facts g S := by
  have hstart : a.SweepsAgree o g S
      { facts := start.fit g a.initial, events := #[], settled := false }
      { facts := start.fit g o.initial, events := #[], settled := false } := by
    refine ⟨⟨start.fits_fit g a.initial, nofun⟩, ⟨start.fits_fit g o.initial, nofun⟩, ?_⟩
    rw [h.initial]
    exact fun b block _ _ ↦ Facts.agreesAt_refl _ b block
  exact (iterateUntil_stuttering (fun _ _ hs ↦ sweepStep_advances hg ha ho h hclosed hs) hstart
    hsettled hsettled').facts

omit ho in
open scoped Classical in
theorem lastRevisit_agreesOn {limit limit' : Nat} {start : Facts L}
    (hqueue : (a.lastRevisit g limit start).work.queue = [])
    (hqueue' : (o.lastRevisit g limit' start).work.queue = []) :
    (a.lastRevisit g limit start).facts.AgreesOn (o.lastRevisit g limit' start).facts g S := by
  have hstart : RevisitsAgree g S
      { facts := start.fit g a.initial, events := #[], work := a.initialWork g, iterations := 0 }
      { facts := start.fit g o.initial, events := #[], work := o.initialWork g,
        iterations := 0 } := by
    refine ⟨start.fits_fit g a.initial, start.fits_fit g o.initial, ?_, sound_initialWork a g,
      sound_initialWork o g, ?_⟩
    · rw [h.initial]
      exact fun b block _ _ ↦ Facts.agreesAt_refl _ b block
    · rw [initialWork, initialWork, h.direction]
  exact (iterateUntil_stuttering (fun _ _ hs ↦ worklistStep_advances hg ha h hclosed hs) hstart
    (List.isEmpty_iff.mpr hqueue) (List.isEmpty_iff.mpr hqueue')).facts

theorem solveFrom_agreesOn {strategy : Strategy} {limit limit' : Nat} {start : Facts L}
    {stats stats' : Stats} (hok : (a.solveFrom strategy g limit start).outcome = .ok stats)
    (hok' : (o.solveFrom strategy g limit' start).outcome = .ok stats') :
    (a.solveFrom strategy g limit start).facts.AgreesOn
      (o.solveFrom strategy g limit' start).facts g S := by
  intro b block hb hmem
  have hblocks := FlowGraph.isEmpty_eq_false_of_block? hb
  cases strategy with
  | naive =>
    rw [solveFrom, solveFrom, facts_solveNaive hblocks, facts_solveNaive hblocks]
    exact lastSweep_agreesOn hg ha ho h hclosed (settled_of_solveNaive_ok hblocks hok)
      (settled_of_solveNaive_ok hblocks hok') hb hmem
  | worklist =>
    rw [solveFrom, solveFrom, facts_solveWorklist hblocks, facts_solveWorklist hblocks]
    exact lastRevisit_agreesOn hg ha h hclosed (queue_of_solveWorklist_ok hblocks hok)
      (queue_of_solveWorklist_ok hblocks hok') hb hmem

end Runs

/-- On a built graph, let two respectful analyses share direction, initial fact and meet, and agree
on the instructions of a set of blocks that facts enter from the set alone. Whenever both converge
by one strategy, within whatever limits, their results have equal facts at the blocks of the set and
around the instructions of these. -/
theorem upstream_determines_facts {draft : Draft} (hbuild : draft.build = .ok g)
    (ha : a.Respectful) (ho : o.Respectful) (h : a.AgreesOn o g S)
    (hclosed : a.direction.ClosedUpstream g S) {c c' : Config}
    (hstrategy : c.strategy = c'.strategy) {r r' : Results L} (hr : a.solve c g = .ok r)
    (hr' : o.solve c' g = .ok r') {b : Nat} {block : Block} (hb : g.block? b = some block)
    (hmem : b ∈ S) :
    r.blockIn b == r'.blockIn b ∧ r.blockOut b == r'.blockOut b ∧
      ∀ i ∈ block.instrs, r.instrIn i.id == r'.instrIn i.id ∧
        r.instrOut i.id == r'.instrOut i.id := by
  have hg := draft.wellFormed_of_build hbuild
  obtain ⟨stats, hok, rfl⟩ := solve_eq_ok_iff.mp hr
  obtain ⟨stats', hok', rfl⟩ := solve_eq_ok_iff.mp hr'
  have hrun : o.run c' g = o.solveFrom c.strategy g c'.limit (.new g a.initial) := by
    rw [run, hstrategy, h.initial]
  have hagree : (a.run c g).facts.AgreesAt (o.run c' g).facts b block := by
    rw [hrun] at hok' ⊢
    exact solveFrom_agreesOn hg ha ho h hclosed hok hok' hb hmem
  rw [← h.initial]
  exact ⟨getD_beq hagree.blockIn _, getD_beq hagree.blockOut _, fun i hi ↦
    ⟨getD_beq (hagree.instrs i hi).1 _, getD_beq (hagree.instrs i hi).2 _⟩⟩

/-- Blocks 0 and 2 receive nothing from blocks 1 and 3, which call in a loop. -/
def braided : Draft where
  blocks := #[
    #[.assign 0 (.operand (.const (.int 1)))],
    #[.call "log" 0],
    #[.assign 0 (.binary .add (.var 0) (.var 0)), .branch (.var 0)],
    #[.call "log" 0]]
  edges := #[(0, 1), (0, 2), (2, 2), (2, 1), (1, 3), (3, 1)]
  varNames := #["x"]
  stray := none
  edges_nodup := by decide
  varNames_nodup := List.nodup_singleton "x"

/-- Counting with sums, and counting in which a call takes a number to what it lacks of seven, in
runs of different lengths that differ downstream. -/
theorem upstream_determines_facts_braided :
    let g := braided.toFlowGraph
    let a := Counting.analysis { cap := 4, merge := .sum } .forward
    let o : Analysis Nat := { a with
      transfer := fun i n ↦
        match i.stmt with
        | .call _ _ => 7 - n
        | _ => a.transfer i n }
    ∃ r r', a.solve ⟨.worklist, 0, 11⟩ g = .ok r ∧ o.solve ⟨.worklist, 0, 13⟩ g = .ok r' ∧
      (r.iterations, r'.iterations) = (11, 13) ∧ (r.blockOut 3, r'.blockOut 3) = (4, 7) ∧
      r.blockIn 2 == r'.blockIn 2 ∧ r.blockOut 2 == r'.blockOut 2 ∧
      ∀ i ∈ [2, 3], r.instrIn i == r'.instrIn i ∧ r.instrOut i == r'.instrOut i := by
  intro g a o
  let c : Config := ⟨.worklist, 0, 11⟩
  let c' : Config := ⟨.worklist, 0, 13⟩
  let r := Results.ofFacts (a.run c g).facts 0 .forward ⟨.worklist, 11, 11⟩
  let r' := Results.ofFacts (o.run c' g).facts 0 .forward ⟨.worklist, 13, 13⟩
  have hbuild : braided.build = .ok g := rfl
  have hok : (a.run c g).outcome = .ok ⟨.worklist, 11, 11⟩ := by decide +kernel
  have hok' : (o.run c' g).outcome = .ok ⟨.worklist, 13, 13⟩ := by decide +kernel
  have hr : a.solve c g = .ok r := solve_eq_ok_iff.mpr ⟨_, hok, rfl⟩
  have hr' : o.solve c' g = .ok r' := solve_eq_ok_iff.mpr ⟨_, hok', rfl⟩
  have hdown : (r.blockOut 3, r'.blockOut 3) = (4, 7) := by decide +kernel
  have hzero : g.block? 0 = some ⟨[⟨0, .assign 0 (.operand (.const (.int 1)))⟩], [1, 2], []⟩ := rfl
  have htwo : g.block? 2 = some ⟨[⟨2, .assign 0 (.binary .add (.var 0) (.var 0))⟩,
    ⟨3, .branch (.var 0)⟩], [2, 1], [0, 2]⟩ := rfl
  have hclosed : Direction.forward.ClosedUpstream g {b | b ∈ [0, 2]} := by
    have hpreds : ∀ b ∈ [0, 2], ∀ source ∈ g.preds b, source ∈ [0, 2] := by decide +kernel
    exact hpreds
  have hshared : a.AgreesOn o g {b | b ∈ [0, 2]} := by
    refine ⟨rfl, rfl, rfl, fun {b block i} hb hmem hi x ↦ ?_⟩
    obtain rfl | rfl : b = 0 ∨ b = 2 := by simpa using hmem
    · cases hzero.symm.trans hb
      obtain rfl := List.mem_singleton.mp hi
      exact BEq.rfl
    · cases htwo.symm.trans hb
      obtain rfl | rfl := List.mem_pair.mp hi
      · exact BEq.rfl
      · exact BEq.rfl
  have hstrategy : c.strategy = c'.strategy := rfl
  have hmem : 2 ∈ {b | b ∈ [0, 2]} := by simp
  obtain ⟨hin, hout, hinstrs⟩ := upstream_determines_facts hbuild a.respectful_of_lawfulBEq
    o.respectful_of_lawfulBEq hshared hclosed hstrategy hr hr' htwo hmem
  have hfirst := hinstrs _ List.mem_cons_self
  have hsecond := hinstrs _ (List.mem_cons_of_mem _ List.mem_cons_self)
  exact ⟨r, r', hr, hr', rfl, hdown, hin, hout,
    List.forall_mem_cons.mpr ⟨hfirst, List.forall_mem_singleton.mpr hsecond⟩⟩

end Analysis

end FlowFacts

import Mathlib.Algebra.BigOperators.Group.Finset.Basic
import Mathlib.Algebra.Order.BigOperators.Group.Finset
import Mathlib.Algebra.BigOperators.Ring.Finset
import Mathlib.Data.Option.Basic
import Mathlib.Tactic.Ring
import FlowFacts.Proofs.FactInvariants

/-!
From the initial facts, a run of a lawful analysis only goes down. Facts are descending when another
visit of any block would lower what is recorded of it or leave it; a visit keeps facts descending
because meet and transfer are monotone. If facts have room for finitely many falls only, every visit
that changes a block uses up some of it, so both solvers converge: a sweep that changes something
costs one fall, and a visit from the worklist that changes a block pays with one fall for all blocks
that it queues.
-/

set_option autoImplicit false
set_option relaxedAutoImplicit false

namespace FlowFacts

/-- A run is done within as many steps as its countdown has left. -/
theorem iterateUntil_done_of_countdown {σ : Type} (done : σ → Bool) {step : σ → σ}
    {P : Nat → σ → Prop} (hstep : ∀ n s, P n s → done s = false → ∃ m < n, P m (step s))
    {n limit : Nat} {s : σ} (hs : P n s) (hlimit : n ≤ limit) :
    done (iterateUntil done step limit s) = true := by
  induction limit generalizing n s with
  | zero =>
    rw [iterateUntil, ← Bool.not_eq_false]
    intro hdone
    obtain ⟨m, hm, -⟩ := hstep n s hs hdone
    omega
  | succ limit ih =>
    rw [iterateUntil]
    split_ifs with hdone
    · exact hdone
    · obtain ⟨m, hm, hnext⟩ := hstep n s hs (Bool.eq_false_of_not_eq_true hdone)
      exact ih hnext (by omega)

/-- A run whose steps lower a measure is done once the limit reaches the measure. -/
theorem iterateUntil_done {σ : Type} (done : σ → Bool) {step : σ → σ} {P : σ → Prop}
    (measure : σ → Nat) (hstep : ∀ s, P s → done s = false → P (step s))
    (hless : ∀ s, P s → done s = false → measure (step s) < measure s) {limit : Nat} {s : σ}
    (hs : P s) (hlimit : measure s ≤ limit) : done (iterateUntil done step limit s) = true := by
  refine iterateUntil_done_of_countdown done (P := fun n s ↦ P s ∧ n = measure s) ?_ ⟨hs, rfl⟩
    hlimit
  rintro n s ⟨hs, rfl⟩ hdone
  exact ⟨_, hless s hs hdone, hstep s hs hdone, rfl⟩

namespace Facts

variable {L : Type}

theorem fit_new (g : FlowGraph) (initial : L) : (new g initial).fit g initial = new g initial :=
  fit_of_fits (fits_new g initial) initial

end Facts

namespace Analysis

variable {L : Type} {a : Analysis L} {g : FlowGraph}

/-- A fact taken through instructions. -/
def through (a : Analysis L) (path : List Instr) (x : L) : L :=
  path.foldl (fun x i ↦ a.transfer i x) x

theorem thread_fst (path : List Instr) (x : L) (facts : Facts L) :
    (a.thread path x facts).1 = a.through path x := by
  induction path generalizing x facts with
  | nil => rfl
  | cons i rest ih => exact ih (a.transfer i x) _

theorem passThrough_eq (block : Block) (facts : Facts L) :
    a.passThrough block facts = a.through (a.direction.path block) (a.gather facts block) :=
  thread_fst _ _ _

variable [BEq L]

theorem through_mono (ha : a.Lawful) (path : List Instr) {x y : L} (h : a.Below x y) :
    a.Below (a.through path x) (a.through path y) := by
  induction path generalizing x y with
  | nil => exact h
  | cons i rest ih => exact ih (ha.transfer_mono i h)

/-! ### Descending facts -/

/-- The first facts are below the second, place by place. -/
def Lower (a : Analysis L) (items' items : Array L) : Prop :=
  ∀ n : Nat, Option.Rel a.Below items'[n]? items[n]?

/-- A visit of any block lowers what is recorded of it or leaves it. -/
structure Descending (a : Analysis L) (g : FlowGraph) (facts : Facts L) : Prop where
  fits : facts.Fits g
  enter : ∀ {b : Nat} {block : Block} {x : L}, g.block? b = some block →
    (facts.blockEnter a.direction)[b]? = some x → a.Below (a.gather facts block) x
  leave : ∀ {b : Nat} {block : Block} {x y : L}, g.block? b = some block →
    (facts.blockEnter a.direction)[b]? = some x → (facts.blockLeave a.direction)[b]? = some y →
    a.Below (a.through (a.direction.path block) x) y

theorem Descending.exists_blockEnter {facts : Facts L} {b : Nat} {block : Block}
    (h : a.Descending g facts) (hb : g.block? b = some block) :
    ∃ x, (facts.blockEnter a.direction)[b]? = some x :=
  ⟨_, Array.getElem?_eq_getElem
    (h.fits.size_blockEnter a.direction ▸ FlowGraph.lt_blockCount_of_block? hb)⟩

theorem lower_refl (ha : a.Lawful) (items : Array L) : a.Lower items items := by
  intro n
  cases items[n]? with
  | none => exact .none
  | some y => exact .some (ha.meet_self y)

theorem Lower.getD (ha : a.Lawful) {items items' : Array L} (h : a.Lower items' items) (n : Nat)
    (initial : L) : a.Below (items'.getD n initial) (items.getD n initial) := by
  have hn := h n
  rw [Array.getD_eq_getD_getElem?, Array.getD_eq_getD_getElem?]
  generalize items'[n]? = first at hn ⊢
  generalize items[n]? = second at hn ⊢
  cases hn with
  | none => exact ha.meet_self initial
  | some hbelow => exact hbelow

theorem lower_setIfInBounds (ha : a.Lawful) {items : Array L} {b : Nat} {x : L}
    (h : ∀ {y}, items[b]? = some y → a.Below x y) : a.Lower (items.setIfInBounds b x) items := by
  intro n
  rw [Array.getElem?_setIfInBounds]
  split_ifs with hn hlt
  · subst hn
    have hget := Array.getElem?_eq_getElem hlt
    rw [hget]
    exact .some (h hget)
  · rw [← hn, Array.getElem?_eq_none (Nat.not_lt.mp hlt)]
    exact .none
  · exact lower_refl ha items n

variable [EquivBEq L]

theorem Lower.trans (ha : a.Lawful) {items items' items'' : Array L} (h : a.Lower items'' items')
    (h' : a.Lower items' items) : a.Lower items'' items := by
  intro n
  have hfirst := h n
  have hsecond := h' n
  generalize items''[n]? = third at hfirst ⊢
  generalize items'[n]? = second at hfirst hsecond
  generalize items[n]? = first at hsecond ⊢
  cases hfirst with
  | none => exact hsecond
  | some hbelow =>
    cases hsecond with
    | some hbelow' => exact .some (hbelow.trans ha hbelow')

theorem meet_mono (ha : a.Lawful) {x x' y y' : L} (hx : a.Below x' x) (hy : a.Below y' y) :
    a.Below (a.meet x' y') (a.meet x y) :=
  below_meet ha ((meet_below_left ha x' y').trans ha hx) ((meet_below_right ha x' y').trans ha hy)

theorem gather_mono (ha : a.Lawful) {facts facts' : Facts L}
    (h : a.Lower (facts'.blockLeave a.direction) (facts.blockLeave a.direction)) (block : Block) :
    a.Below (a.gather facts' block) (a.gather facts block) := by
  refine List.foldl_rel (r := a.Below) (ha.meet_self a.initial) fun s _ x x' hx ↦ ?_
  have hleave := h s
  generalize (facts'.blockLeave a.direction)[s]? = left' at hleave ⊢
  generalize (facts.blockLeave a.direction)[s]? = left at hleave ⊢
  cases hleave with
  | none => exact hx
  | some hy => exact meet_mono ha hx hy

theorem descending_new (ha : a.Lawful) (g : FlowGraph) :
    a.Descending g (Facts.new g a.initial) := by
  have hnew : (Facts.new g a.initial).Holds fun _ x ↦ x = a.initial :=
    Facts.holds_new g fun _ ↦ rfl
  refine ⟨Facts.fits_new g a.initial, fun _ hx ↦ ?_, fun _ _ hy ↦ ?_⟩
  · rw [hnew.blockEnter hx]
    exact below_initial ha _
  · rw [hnew.blockLeave hy]
    exact below_initial ha _

section Visit

variable {facts : Facts L} {b : Nat} {block : Block}

omit [EquivBEq L] in
theorem Descending.lower_blockEnter (ha : a.Lawful) (h : a.Descending g facts)
    (hb : g.block? b = some block) :
    a.Lower ((a.visit b block facts).1.blockEnter a.direction) (facts.blockEnter a.direction) := by
  rw [visit_blockEnter]
  exact lower_setIfInBounds ha fun hx ↦ h.enter hb hx

theorem Descending.lower_blockLeave (ha : a.Lawful) (h : a.Descending g facts)
    (hb : g.block? b = some block) :
    a.Lower ((a.visit b block facts).1.blockLeave a.direction) (facts.blockLeave a.direction) := by
  obtain ⟨x, hx⟩ := h.exists_blockEnter hb
  rw [visit_blockLeave, passThrough_eq]
  exact lower_setIfInBounds ha fun hy ↦
    (through_mono ha _ (h.enter hb hx)).trans ha (h.leave hb hx hy)

theorem descending_visit (ha : a.Lawful) (h : a.Descending g facts)
    (hb : g.block? b = some block) : a.Descending g (a.visit b block facts).1 := by
  have hgather := gather_mono ha (h.lower_blockLeave ha hb)
  refine ⟨fits_visit h.fits b block, fun {c other x} hc hx ↦ ?_, fun {c other x y} hc hx hy ↦ ?_⟩
  · rw [visit_blockEnter] at hx
    rcases getElem?_setIfInBounds_eq_some hx with ⟨rfl, rfl⟩ | hx
    · obtain rfl : block = other := Option.some.inj (hb.symm.trans hc)
      exact hgather block
    · exact (hgather other).trans ha (h.enter hc hx)
  · rw [visit_blockEnter, Array.getElem?_setIfInBounds] at hx
    rw [visit_blockLeave, Array.getElem?_setIfInBounds] at hy
    by_cases hcb : b = c
    · subst hcb
      obtain rfl : block = other := Option.some.inj (hb.symm.trans hc)
      rw [if_pos rfl] at hx hy
      split_ifs at hx hy
      obtain rfl := Option.some.inj hx
      obtain rfl := Option.some.inj hy
      rw [passThrough_eq]
      exact ha.meet_self _
    · rw [if_neg hcb] at hx hy
      exact h.leave hc hx hy

end Visit

/-! ### Room to fall -/

/-- Facts of a kind can fall only finitely often: each fall uses up some room. -/
structure FiniteFall (a : Analysis L) (Good : L → Prop) (room : L → Nat) : Prop where
  le : ∀ {x y : L}, Good x → Good y → a.Below x y → room x ≤ room y
  lt : ∀ {x y : L}, Good x → Good y → a.Below x y → ¬x == y → room x < room y

/-- The room that the recorded facts of a block have left. -/
def blockRoom (room : L → Nat) (facts : Facts L) (b : Nat) : Nat :=
  facts.blockIn[b]?.elim 0 room + facts.blockOut[b]?.elim 0 room

omit [BEq L] [EquivBEq L] in
theorem blockRoom_eq (direction : Direction) (room : L → Nat) (facts : Facts L) (b : Nat) :
    blockRoom room facts b =
      (facts.blockEnter direction)[b]?.elim 0 room +
        (facts.blockLeave direction)[b]?.elim 0 room := by
  cases direction with
  | forward => rfl
  | backward => exact Nat.add_comm _ _

/-- The room of all blocks, each with a weight. -/
def totalRoom (g : FlowGraph) (room : L → Nat) (weight : Nat → Nat) (facts : Facts L) : Nat :=
  ∑ b ∈ Finset.range g.blockCount, weight b * blockRoom room facts b

section Room

variable {Good : L → Prop} {room : L → Nat}

omit [EquivBEq L] in
theorem FiniteFall.elim_le (hroom : a.FiniteFall Good room) {o o' : Option L}
    (h : Option.Rel a.Below o' o) (ho' : ∀ x, o' = some x → Good x)
    (ho : ∀ x, o = some x → Good x) : o'.elim 0 room ≤ o.elim 0 room := by
  cases h with
  | none => exact Nat.le_refl _
  | some h => exact hroom.le (ho' _ rfl) (ho _ rfl) h

omit [EquivBEq L] in
theorem FiniteFall.elim_lt (hroom : a.FiniteFall Good room) {o o' : Option L}
    (h : Option.Rel a.Below o' o) (ho' : ∀ x, o' = some x → Good x)
    (ho : ∀ x, o = some x → Good x) (hne : ¬o' == o) : o'.elim 0 room < o.elim 0 room := by
  cases h with
  | none => exact absurd rfl hne
  | some h => exact hroom.lt (ho' _ rfl) (ho _ rfl) h hne

variable {facts : Facts L} {b : Nat} {block : Block}

/-- A visit takes no room from any block, and some from the visited one if it changes it. -/
theorem blockRoom_visit (ha : a.Lawful) (hclosed : a.Closed g fun _ ↦ Good)
    (hroom : a.FiniteFall Good room) (h : a.Descending g facts)
    (hgood : facts.Holds fun _ ↦ Good) (hb : g.block? b = some block) :
    (∀ c, blockRoom room (a.visit b block facts).1 c ≤ blockRoom room facts c) ∧
      ((a.visit b block facts).2 = true →
        blockRoom room (a.visit b block facts).1 b < blockRoom room facts b) := by
  have hgood' := holds_visit hclosed hb hgood
  have henter := fun c ↦ hroom.elim_le (h.lower_blockEnter ha hb c)
    (fun _ ↦ hgood'.blockEnter) (fun _ ↦ hgood.blockEnter)
  have hleave := fun c ↦ hroom.elim_le (h.lower_blockLeave ha hb c)
    (fun _ ↦ hgood'.blockLeave) (fun _ ↦ hgood.blockLeave)
  simp only [blockRoom_eq a.direction]
  refine ⟨fun c ↦ Nat.add_le_add (henter c) (hleave c), fun hchanged ↦ ?_⟩
  have hlt := FlowGraph.lt_blockCount_of_block? hb
  have hentered : ((a.visit b block facts).1.blockEnter a.direction)[b]? =
      some (a.gather facts block) := by
    rw [visit_blockEnter]
    exact Array.getElem?_setIfInBounds_self_of_lt (h.fits.size_blockEnter a.direction ▸ hlt)
  have hleft : ((a.visit b block facts).1.blockLeave a.direction)[b]? =
      some (a.passThrough block facts) := by
    rw [visit_blockLeave]
    exact Array.getElem?_setIfInBounds_self_of_lt (h.fits.size_blockLeave a.direction ▸ hlt)
  rw [visit_changed, Bool.not_eq_true', Bool.and_eq_false_iff, ← hentered, ← hleft] at hchanged
  rcases hchanged with hne | hne
  · exact Nat.add_lt_add_of_lt_of_le (hroom.elim_lt (h.lower_blockEnter ha hb b)
      (fun _ ↦ hgood'.blockEnter) (fun _ ↦ hgood.blockEnter) (by simp [hne])) (hleave b)
  · exact Nat.add_lt_add_of_le_of_lt (henter b) (hroom.elim_lt (h.lower_blockLeave ha hb b)
      (fun _ ↦ hgood'.blockLeave) (fun _ ↦ hgood.blockLeave) (by simp [hne]))

/-- A visit that changes a block takes at least the weight of that block. -/
theorem totalRoom_visit (ha : a.Lawful) (hclosed : a.Closed g fun _ ↦ Good)
    (hroom : a.FiniteFall Good room) (h : a.Descending g facts)
    (hgood : facts.Holds fun _ ↦ Good) (hb : g.block? b = some block)
    (weight : Nat → Nat) :
    totalRoom g room weight (a.visit b block facts).1 +
      (if (a.visit b block facts).2 then weight b else 0) ≤ totalRoom g room weight facts := by
  obtain ⟨hle, hlt⟩ := blockRoom_visit ha hclosed hroom h hgood hb
  have hmem : b ∈ Finset.range g.blockCount :=
    Finset.mem_range.mpr (FlowGraph.lt_blockCount_of_block? hb)
  have hothers := Finset.sum_le_sum fun c (_ : c ∈ (Finset.range g.blockCount).erase b) ↦
    Nat.mul_le_mul_left (weight c) (hle c)
  have hvisited : weight b * blockRoom room (a.visit b block facts).1 b +
      (if (a.visit b block facts).2 then weight b else 0) ≤
      weight b * blockRoom room facts b := by
    split_ifs with hchanged
    · exact Nat.mul_le_mul_left (weight b) (hlt hchanged)
    · exact Nat.mul_le_mul_left (weight b) (hle b)
  rw [totalRoom, totalRoom, ← Finset.add_sum_erase _ _ hmem, ← Finset.add_sum_erase _ _ hmem]
  omega

/-! ### Convergence -/

/-- What holds of the facts of a run from the initial facts. -/
structure Falling (a : Analysis L) (g : FlowGraph) (Good : L → Prop) (facts : Facts L) : Prop where
  descending : a.Descending g facts
  good : facts.Holds fun _ ↦ Good

theorem falling_visit (ha : a.Lawful) (hclosed : a.Closed g fun _ ↦ Good)
    (h : a.Falling g Good facts) (hb : g.block? b = some block) :
    a.Falling g Good (a.visit b block facts).1 :=
  ⟨descending_visit ha h.descending hb, holds_visit hclosed hb h.good⟩

theorem falling_new (ha : a.Lawful) (hclosed : a.Closed g fun _ ↦ Good) :
    a.Falling g Good (Facts.new g a.initial) :=
  ⟨descending_new ha g, holds_new hclosed⟩

omit [EquivBEq L] in
theorem sweepBlock_of_block? (hb : g.block? b = some block) (state : Facts L × Bool) :
    a.sweepBlock g state b =
      ((a.visit b block state.1).1, state.2 || (a.visit b block state.1).2) := by
  simp [sweepBlock, hb]

/-- A part of a sweep that changes something takes room. -/
theorem totalRoom_foldl_sweepBlock (ha : a.Lawful) (hclosed : a.Closed g fun _ ↦ Good)
    (hroom : a.FiniteFall Good room) (blocks : List Nat) (state : Facts L × Bool)
    (h : a.Falling g Good state.1) :
    totalRoom g room (fun _ ↦ 1) (blocks.foldl (a.sweepBlock g) state).1 +
      (blocks.foldl (a.sweepBlock g) state).2.toNat ≤
      totalRoom g room (fun _ ↦ 1) state.1 + state.2.toNat := by
  induction blocks generalizing state with
  | nil => exact Nat.le_refl _
  | cons b rest ih =>
    rw [List.foldl_cons]
    cases hb : g.block? b with
    | none =>
      have hskip : a.sweepBlock g state b = state := by simp [sweepBlock, hb]
      rw [hskip]
      exact ih state h
    | some block =>
      have hvisit := totalRoom_visit ha hclosed hroom h.descending h.good hb fun _ ↦ 1
      rw [sweepBlock_of_block? hb]
      have hnext : a.Falling g Good (a.visit b block state.1).1 := falling_visit ha hclosed h hb
      refine (ih (_, state.2 || (a.visit b block state.1).2) hnext).trans ?_
      change totalRoom g room (fun _ ↦ 1) (a.visit b block state.1).1 +
        (state.2 || (a.visit b block state.1).2).toNat ≤ _
      cases hchanged : (a.visit b block state.1).2 with
      | false =>
        rw [hchanged] at hvisit
        simpa using hvisit
      | true =>
        rw [hchanged, if_pos rfl] at hvisit
        simp only [Bool.or_true, Bool.toNat_true]
        exact hvisit.trans (Nat.le_add_right _ _)

theorem solveNaive_ok (ha : a.Lawful) (hclosed : a.Closed g fun _ ↦ Good)
    (hroom : a.FiniteFall Good room) {limit : Nat} {start : Facts L}
    (hstart : a.Falling g Good (start.fit g a.initial))
    (hlimit : totalRoom g room (fun _ ↦ 1) (start.fit g a.initial) < limit) :
    ∃ stats, (a.solveNaive g limit start).outcome = .ok stats := by
  refine solveNaive_ok_of_settled fun _ ↦ iterateUntil_done Sweeping.settled
    (P := fun s ↦ a.Falling g Good s.facts)
    (fun s ↦ totalRoom g room (fun _ ↦ 1) s.facts + (!s.settled).toNat)
    (fun s hs _ ↦ ?_) (fun s hs hsettled ↦ ?_) hstart (Nat.succ_le_of_lt hlimit)
  · exact sweep_preserves (P := a.Falling g Good)
      (fun hb hfacts ↦ falling_visit ha hclosed hfacts hb) hs
  · have hsweep := totalRoom_foldl_sweepBlock ha hclosed hroom (a.direction.order g)
      (s.facts, false) hs
    simp only [sweepStep, sweep, Bool.not_not, hsettled, Bool.not_false, Bool.toNat_true]
    exact Nat.lt_succ_of_le hsweep

theorem length_foldl_push_le (targets : List Nat) (w : Worklist) :
    (targets.foldl Worklist.push w).queue.length ≤ w.queue.length + targets.length := by
  induction targets generalizing w with
  | nil => exact Nat.le_refl _
  | cons b rest ih =>
    have hpush : (w.push b).queue.length ≤ w.queue.length + 1 := by
      unfold Worklist.push
      split_ifs <;> simp
    have hrest := ih (w.push b)
    rw [List.foldl_cons, List.length_cons]
    omega

/-- The number of blocks that a block's facts go to. -/
def fanOut (a : Analysis L) (g : FlowGraph) (b : Nat) : Nat :=
  (g.block? b).elim 0 fun block ↦ (a.direction.targets block).length

/-- Every step of the worklist solver takes a block from the queue, and pays with room for the
blocks that it adds. -/
theorem totalRoom_worklistStep (ha : a.Lawful) (hclosed : a.Closed g fun _ ↦ Good)
    (hroom : a.FiniteFall Good room) {s : Revisiting L} (hs : a.Falling g Good s.facts)
    (hwaiting : s.work.queue ≠ []) :
    totalRoom g room (a.fanOut g) (a.worklistStep g s).facts +
      (a.worklistStep g s).work.queue.length <
      totalRoom g room (a.fanOut g) s.facts + s.work.queue.length := by
  rcases worklistStep_cases a g s with ⟨hpop, -⟩ | ⟨b, rest, hpop, -, hstep⟩ |
    ⟨b, rest, block, hpop, hb, hstep⟩
  · unfold Worklist.pop? at hpop
    split at hpop
    · next hqueue => exact absurd hqueue hwaiting
    · cases hpop
  · rw [hstep, Worklist.queue_of_pop? hpop]
    simp
  · have hvisit := totalRoom_visit ha hclosed hroom hs.descending hs.good hb (a.fanOut g)
    have hfan : a.fanOut g b = (a.direction.targets block).length := by simp [fanOut, hb]
    have hpush := length_foldl_push_le (a.direction.targets block) rest
    rw [hstep, Worklist.queue_of_pop? hpop, List.length_cons]
    cases hchanged : (a.visit b block s.facts).2 with
    | false =>
      simp only [hchanged, Bool.false_eq_true, if_false] at hvisit ⊢
      omega
    | true =>
      simp only [hchanged, if_true] at hvisit ⊢
      omega

theorem solveWorklist_ok (ha : a.Lawful) (hclosed : a.Closed g fun _ ↦ Good)
    (hroom : a.FiniteFall Good room) {limit : Nat} {start : Facts L}
    (hstart : a.Falling g Good (start.fit g a.initial))
    (hlimit : totalRoom g room (a.fanOut g) (start.fit g a.initial) + g.blockCount ≤ limit) :
    ∃ stats, (a.solveWorklist g limit start).outcome = .ok stats := by
  refine solveWorklist_ok_of_queue fun _ ↦
    iterateUntil_done (fun s : Revisiting L ↦ s.work.queue.isEmpty)
      (P := fun s ↦ a.Falling g Good s.facts)
      (fun s ↦ totalRoom g room (a.fanOut g) s.facts + s.work.queue.length)
      (fun s hs _ ↦ ?_) (fun s hs hwaiting ↦ ?_) hstart ?_
  · exact worklistStep_preserves (P := a.Falling g Good)
      (fun hb hfacts ↦ falling_visit ha hclosed hfacts hb) s hs
  · exact totalRoom_worklistStep ha hclosed hroom hs (by simpa using hwaiting)
  · rwa [initialWork, length_order]

/-! ### Limits from the initial facts -/

omit [BEq L] [EquivBEq L] in
theorem totalRoom_new (g : FlowGraph) (room : L → Nat) (weight : Nat → Nat) (initial : L) :
    totalRoom g room weight (Facts.new g initial) =
      2 * room initial * ∑ b ∈ Finset.range g.blockCount, weight b := by
  rw [totalRoom, Finset.mul_sum]
  refine Finset.sum_congr rfl fun b hb ↦ ?_
  have hlt := Finset.mem_range.mp hb
  simp only [blockRoom, Facts.new, Array.getElem?_replicate, if_pos hlt, Option.elim_some]
  ring

theorem naive_converges (ha : a.Lawful) (hclosed : a.Closed g fun _ ↦ Good)
    (hroom : a.FiniteFall Good room) {limit : Nat}
    (hlimit : 2 * room a.initial * g.blockCount < limit) :
    ∃ stats, (a.solveNaive g limit (.new g a.initial)).outcome = .ok stats := by
  refine solveNaive_ok ha hclosed hroom ?_ ?_
  · rw [Facts.fit_new]
    exact falling_new ha hclosed
  · rwa [Facts.fit_new, totalRoom_new, ← Finset.card_eq_sum_ones, Finset.card_range]

theorem worklist_converges (ha : a.Lawful) (hclosed : a.Closed g fun _ ↦ Good)
    (hroom : a.FiniteFall Good room) {limit : Nat}
    (hlimit : g.blockCount + 2 * room a.initial *
      ∑ b ∈ Finset.range g.blockCount, a.fanOut g b ≤ limit) :
    ∃ stats, (a.solveWorklist g limit (.new g a.initial)).outcome = .ok stats := by
  refine solveWorklist_ok ha hclosed hroom ?_ ?_
  · rw [Facts.fit_new]
    exact falling_new ha hclosed
  · rwa [Facts.fit_new, totalRoom_new, add_comm]

end Room

end Analysis

/-! ### Edges -/

theorem FlowGraph.sum_length_succs (g : FlowGraph) :
    ∑ b ∈ Finset.range g.blockCount, (g.succs b).length = g.edges.length := by
  rw [FlowGraph.edges, FlowGraph.blockIds]
  induction g.blockCount with
  | zero => rfl
  | succ n ih =>
    rw [Finset.sum_range_succ, ih, List.range_succ, List.flatMap_append]
    simp

/-- Every edge is counted once, at the end that is looked at. -/
theorem Digraph.sum_length_filter {edges : List (Nat × Nat)} {n : Nat} (side : Nat × Nat → Nat)
    (h : ∀ e ∈ edges, side e < n) :
    ∑ b ∈ Finset.range n, (edges.filter (side · == b)).length = edges.length := by
  have hcount : ∀ b, (edges.filter (side · == b)).length = (edges.map side).count b := by
    intro b
    rw [List.count, List.countP_map, List.countP_eq_length_filter]
    rfl
  simp only [hcount, ← Multiset.coe_count]
  rw [Multiset.sum_count_eq_card, Multiset.coe_card, List.length_map]
  intro b hb
  obtain ⟨e, he, rfl⟩ := List.mem_map.mp (Multiset.mem_coe.mp hb)
  exact Finset.mem_range.mpr (h e he)

/-- In a built graph there are as many predecessors as successors. -/
theorem Draft.sum_length_preds {d : Draft} {g : FlowGraph} (hbuild : d.build = .ok g) :
    ∑ b ∈ Finset.range g.blockCount, (g.preds b).length = g.edges.length := by
  obtain ⟨hedge, rfl⟩ := eq_toFlowGraph_of_build hbuild
  have hedges := edges_lt_of_danglingEdge?_eq_none hedge
  have htargets := Digraph.sum_length_filter Prod.fst fun e he ↦ (hedges e he).1
  have hsources := Digraph.sum_length_filter Prod.snd fun e he ↦ (hedges e he).2
  rw [← FlowGraph.sum_length_succs, blockCount_toFlowGraph]
  calc ∑ b ∈ Finset.range d.blocks.size, (d.toFlowGraph.preds b).length
      = ∑ b ∈ Finset.range d.blocks.size, (d.edges.toList.filter (·.2 == b)).length :=
        Finset.sum_congr rfl fun b hb ↦ by
          rw [(d.neighbours_toFlowGraph (Finset.mem_range.mp hb)).2, Digraph.sourcesOf,
            List.length_map]
    _ = ∑ b ∈ Finset.range d.blocks.size, (d.edges.toList.filter (·.1 == b)).length :=
        hsources.trans htargets.symm
    _ = ∑ b ∈ Finset.range d.blocks.size, (d.toFlowGraph.succs b).length :=
        Finset.sum_congr rfl fun b hb ↦ by
          rw [(d.neighbours_toFlowGraph (Finset.mem_range.mp hb)).1, Digraph.targetsOf,
            List.length_map]

theorem Analysis.fanOut_of_forward {L : Type} {a : Analysis L} (h : a.direction = .forward)
    (g : FlowGraph) (b : Nat) : a.fanOut g b = (g.succs b).length := by
  rw [fanOut, h, FlowGraph.succs]
  cases g.block? b <;> rfl

theorem Analysis.fanOut_of_backward {L : Type} {a : Analysis L} (h : a.direction = .backward)
    (g : FlowGraph) (b : Nat) : a.fanOut g b = (g.preds b).length := by
  rw [fanOut, h, FlowGraph.preds]
  cases g.block? b <;> rfl

theorem Analysis.sum_fanOut {L : Type} (a : Analysis L) {d : Draft} {g : FlowGraph}
    (hbuild : d.build = .ok g) :
    ∑ b ∈ Finset.range g.blockCount, a.fanOut g b = g.edges.length := by
  cases hdirection : a.direction with
  | forward =>
    simp only [fanOut_of_forward hdirection]
    exact g.sum_length_succs
  | backward =>
    simp only [fanOut_of_backward hdirection]
    exact Draft.sum_length_preds hbuild

end FlowFacts

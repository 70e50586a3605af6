import Mathlib.Data.Finset.Card
import Mathlib.Data.List.Perm.Subperm
import Mathlib.Logic.Relation
import FlowFacts.Counting
import FlowFacts.Proofs.ConstantStates
import FlowFacts.Proofs.Descent
import FlowFacts.Proofs.GreatestSolution

/-!
Graphs without cycles need no laws. The height of a block is the number of blocks whose facts come
to it, so facts only go up. Hence the equations have one solution, built from the bottom, and every
converged run ends in it. A sweep settles the blocks of one more height for good. The worklist goes
in rounds: what is queued while the blocks of one round are visited lies higher than the lowest of
them, so each round starts one height further up.
-/

set_option autoImplicit false
set_option relaxedAutoImplicit false

namespace FlowFacts

variable {g : FlowGraph}

/-- No path of edges leads from a block back to it. -/
def FlowGraph.Acyclic (g : FlowGraph) : Prop :=
  ∀ b : Nat, ¬Relation.TransGen (fun u v ↦ v ∈ g.succs u) b b

theorem Facts.beq_iff {L : Type} [BEq L] {facts facts' : Facts L} (direction : Direction) :
    facts == facts' ↔ facts.blockEnter direction == facts'.blockEnter direction ∧
      facts.blockLeave direction == facts'.blockLeave direction ∧
      facts.instrEnter direction == facts'.instrEnter direction ∧
      facts.instrLeave direction == facts'.instrLeave direction := by
  have hsides : facts == facts' ↔ facts.blockIn == facts'.blockIn ∧
      facts.blockOut == facts'.blockOut ∧ facts.instrIn == facts'.instrIn ∧
      facts.instrOut == facts'.instrOut := by
    simp only [← Bool.and_eq_true]
    exact Iff.rfl
  cases direction with
  | forward => exact hsides
  | backward =>
    rw [hsides, and_left_comm, and_comm (a := facts.instrIn == facts'.instrIn)]
    rfl

theorem Results.sameFacts_ofFacts {L : Type} [BEq L] {facts facts' : Facts L}
    (h : facts == facts') (initial : L) (direction : Direction) (stats stats' : Stats) :
    (ofFacts facts initial direction stats).sameFacts
      (ofFacts facts' initial direction stats') = true := by
  obtain ⟨hstarts, hends, hbefore, hafter⟩ := (Facts.beq_iff .forward).mp h
  simp only [sameFacts, ofFacts, Bool.and_eq_true]
  exact ⟨⟨⟨hstarts, hends⟩, hbefore⟩, hafter⟩

/-! ### Heights -/

namespace Direction

variable {direction : Direction} {s b : Nat}

/-- Facts go from one block to the other in one step. -/
def Feeds (direction : Direction) (g : FlowGraph) (s b : Nat) : Prop :=
  ∃ block, g.block? b = some block ∧ s ∈ direction.sources block

theorem Feeds.lt_blockCount (h : direction.Feeds g s b) : b < g.blockCount := by
  obtain ⟨block, hb, -⟩ := h
  exact FlowGraph.lt_blockCount_of_block? hb

theorem Feeds.source_lt_blockCount (hg : g.WellFormed) (h : direction.Feeds g s b) :
    s < g.blockCount := by
  obtain ⟨block, hb, hsource⟩ := h
  exact direction.source_lt hg hb hsource

theorem feeds_forward_iff (hg : g.WellFormed) : forward.Feeds g s b ↔ b ∈ g.succs s := by
  rw [← hg.mem_preds_iff]
  constructor
  · rintro ⟨block, hb, hsource⟩
    rwa [FlowGraph.preds_of_block? hb]
  · intro hpred
    obtain ⟨block, hb⟩ := FlowGraph.exists_block?_of_lt
      (hg.lt_of_mem_succs (hg.mem_preds_iff.mp hpred))
    rw [FlowGraph.preds_of_block? hb] at hpred
    exact ⟨block, hb, hpred⟩

theorem feeds_backward_iff : backward.Feeds g s b ↔ s ∈ g.succs b := by
  constructor
  · rintro ⟨block, hb, hsource⟩
    rwa [FlowGraph.succs_of_block? hb]
  · exact FlowGraph.exists_block?_of_mem_succs

/-- A block feeds the blocks that its facts go to. -/
theorem feeds_of_mem_targets (hg : g.WellFormed) {block : Block} (hb : g.block? b = some block)
    {c : Nat} (hc : c ∈ direction.targets block) : direction.Feeds g b c := by
  cases direction with
  | forward =>
    rw [feeds_forward_iff hg, FlowGraph.succs_of_block? hb]
    exact hc
  | backward =>
    rw [feeds_backward_iff, ← hg.mem_preds_iff, FlowGraph.preds_of_block? hb]
    exact hc

theorem not_transGen_feeds (hg : g.WellFormed) (hacyclic : g.Acyclic) (direction : Direction)
    (b : Nat) : ¬Relation.TransGen (direction.Feeds g) b b := by
  cases direction with
  | forward =>
    have hfeeds : forward.Feeds g = fun u v ↦ v ∈ g.succs u := by
      funext u v
      exact propext (feeds_forward_iff hg)
    rw [hfeeds]
    exact hacyclic b
  | backward =>
    have hfeeds : backward.Feeds g = Function.swap fun u v ↦ v ∈ g.succs u := by
      funext u v
      exact propext feeds_backward_iff
    rw [hfeeds, Relation.transGen_swap]
    exact hacyclic b

open Classical in
/-- The blocks whose facts come to a block in any number of steps. -/
noncomputable def ancestors (direction : Direction) (g : FlowGraph) (b : Nat) : Finset Nat :=
  (Finset.range g.blockCount).filter fun s ↦ Relation.TransGen (direction.Feeds g) s b

theorem mem_ancestors {direction : Direction} {s b : Nat} :
    s ∈ direction.ancestors g b ↔ s < g.blockCount ∧ Relation.TransGen (direction.Feeds g) s b := by
  simp [ancestors]

/-- Heights of the blocks, fewer than there are blocks, along which facts only go up. -/
structure Layered (direction : Direction) (g : FlowGraph) (height : Nat → Nat) : Prop where
  height_lt : ∀ {b : Nat}, b < g.blockCount → height b < g.blockCount
  lt_of_feeds : ∀ {s b : Nat}, direction.Feeds g s b → height s < height b

/-- On an acyclic graph, a block has more ancestors than each of them. -/
theorem layered_card_ancestors (hg : g.WellFormed) (hacyclic : g.Acyclic) (direction : Direction) :
    direction.Layered g fun b ↦ (direction.ancestors g b).card := by
  have hself : ∀ b, b ∉ direction.ancestors g b := fun b hb ↦
    not_transGen_feeds hg hacyclic direction b (mem_ancestors.mp hb).2
  refine ⟨fun {b} hb ↦ ?_, fun {s b} hfeeds ↦ ?_⟩
  · have hsub : direction.ancestors g b ⊂ Finset.range g.blockCount := by
      refine (Finset.ssubset_iff_of_subset fun t ht ↦ ?_).mpr ⟨b, Finset.mem_range.mpr hb, hself b⟩
      exact Finset.mem_range.mpr (mem_ancestors.mp ht).1
    simpa using Finset.card_lt_card hsub
  · refine Finset.card_lt_card ((Finset.ssubset_iff_of_subset fun t ht ↦ ?_).mpr ⟨s, ?_, hself s⟩)
    · obtain ⟨hlt, hpath⟩ := mem_ancestors.mp ht
      exact mem_ancestors.mpr ⟨hlt, hpath.tail hfeeds⟩
    · exact mem_ancestors.mpr ⟨hfeeds.source_lt_blockCount hg, .single hfeeds⟩

end Direction

namespace Analysis

variable {L : Type} [BEq L] [EquivBEq L] {a : Analysis L} {height : Nat → Nat}

/-! ### One solution -/

section Unique

variable {fact fact' : Point → L} {b : Nat} {block : Block}

section Inside

variable (ha : a.Respectful) (h : a.Solves g fact) (h' : a.Solves g fact')
  (hb : g.block? b = some block)

include ha h h' hb

theorem Solves.beq_leaveInstr {i : Instr} (hi : i ∈ a.direction.path block)
    (henter : fact (a.direction.enterInstr i.id) == fact' (a.direction.enterInstr i.id)) :
    fact (a.direction.leaveInstr i.id) == fact' (a.direction.leaveInstr i.id) :=
  BEq.trans ((solves_iff.mp h).passing hb hi)
    (BEq.trans (ha.transfer_congr i henter) (BEq.symm ((solves_iff.mp h').passing hb hi)))

/-- Solutions that agree where facts enter a block agree along its instructions. -/
theorem Solves.beq_enterInstr
    (henter : fact (a.direction.enter b) == fact' (a.direction.enter b)) {i : Instr}
    (hi : i ∈ a.direction.path block) :
    fact (a.direction.enterInstr i.id) == fact' (a.direction.enterInstr i.id) := by
  have heq := solves_iff.mp h
  have heq' := solves_iff.mp h'
  obtain ⟨passed, rest, hpath⟩ := List.append_of_mem hi
  clear hi
  -- on the instructions that the facts have passed before `i`
  induction passed using List.reverseRecOn generalizing i rest with
  | nil =>
    have hhead : (a.direction.path block).head? = some i := by simp [hpath]
    exact BEq.trans (heq.first hb hhead) (BEq.trans henter (BEq.symm (heq'.first hb hhead)))
  | append_singleton passed j ih =>
    rw [List.append_assoc, List.singleton_append] at hpath
    have hj : j ∈ a.direction.path block := by simp [hpath]
    have hnext : [j, i] <:+: a.direction.path block := ⟨passed, rest, by simp [hpath]⟩
    have hleave := h.beq_leaveInstr ha h' hb hj (ih (i :: rest) hpath)
    exact BEq.trans (heq.next hb hnext) (BEq.trans hleave (BEq.symm (heq'.next hb hnext)))

theorem Solves.beq_leave (henter : fact (a.direction.enter b) == fact' (a.direction.enter b)) :
    fact (a.direction.leave b) == fact' (a.direction.leave b) := by
  have heq := solves_iff.mp h
  have heq' := solves_iff.mp h'
  cases hlast : (a.direction.path block).getLast? with
  | none =>
    have hempty := List.getLast?_eq_none_iff.mp hlast
    exact BEq.trans (heq.empty hb hempty) (BEq.trans henter (BEq.symm (heq'.empty hb hempty)))
  | some i =>
    have hi := List.mem_of_getLast? hlast
    have hleave := h.beq_leaveInstr ha h' hb hi (h.beq_enterInstr ha h' hb henter hi)
    exact BEq.trans (heq.last hb hlast) (BEq.trans hleave (BEq.symm (heq'.last hb hlast)))

end Inside

/-- From the bottom up, solutions agree where facts enter the blocks. -/
theorem Solves.beq_enter (hg : g.WellFormed) (ha : a.Respectful)
    (hlayered : a.direction.Layered g height) (h : a.Solves g fact) (h' : a.Solves g fact')
    (hb : g.block? b = some block) :
    fact (a.direction.enter b) == fact' (a.direction.enter b) := by
  induction hheight : height b using Nat.strong_induction_on generalizing b block with
  | _ k ih =>
    subst hheight
    have hfold : (a.direction.sources block).foldl
        (fun x s ↦ a.meet x (fact (a.direction.leave s))) a.initial ==
        (a.direction.sources block).foldl
          (fun x s ↦ a.meet x (fact' (a.direction.leave s))) a.initial := by
      refine List.foldl_rel (r := fun x x' ↦ x == x') BEq.rfl fun s hs x x' hx ↦ ?_
      have hfeeds : a.direction.Feeds g s b := ⟨block, hb, hs⟩
      obtain ⟨source, hsource⟩ := FlowGraph.exists_block?_of_lt (hfeeds.source_lt_blockCount hg)
      have henter := ih (height s) (hlayered.lt_of_feeds hfeeds) hsource rfl
      exact ha.meet_congr hx (h.beq_leave ha h' hsource henter)
    exact BEq.trans ((solves_iff.mp h).entering hb)
      (BEq.trans hfold (BEq.symm ((solves_iff.mp h').entering hb)))

end Unique

/-- Facts of a layered graph that solve its equations are equal. -/
theorem beq_of_solves (hg : g.WellFormed) (ha : a.Respectful)
    (hlayered : a.direction.Layered g height) {facts facts' : Facts L} (hfits : facts.Fits g)
    (hfits' : facts'.Fits g) (h : a.Solves g (facts.at a.initial))
    (h' : a.Solves g (facts'.at a.initial)) : facts == facts' := by
  have hblock : ∀ b < g.blockCount,
      (facts.blockEnter a.direction).getD b a.initial ==
          (facts'.blockEnter a.direction).getD b a.initial ∧
        (facts.blockLeave a.direction).getD b a.initial ==
          (facts'.blockLeave a.direction).getD b a.initial := by
    intro b hlt
    obtain ⟨block, hb⟩ := FlowGraph.exists_block?_of_lt hlt
    have henter := h.beq_enter hg ha hlayered h' hb
    have hleave := h.beq_leave ha h' hb henter
    rw [Facts.at_enter, Facts.at_enter] at henter
    rw [Facts.at_leave, Facts.at_leave] at hleave
    exact ⟨henter, hleave⟩
  have hinstr : ∀ n < g.instrCount,
      (facts.instrEnter a.direction).getD n a.initial ==
          (facts'.instrEnter a.direction).getD n a.initial ∧
        (facts.instrLeave a.direction).getD n a.initial ==
          (facts'.instrLeave a.direction).getD n a.initial := by
    intro n hlt
    rw [← List.mem_range, ← hg.map_id_instrs, List.mem_map] at hlt
    obtain ⟨i, hi, rfl⟩ := hlt
    obtain ⟨b, block, hb, hmem⟩ := FlowGraph.exists_block?_of_mem_instrs hi
    have hi : i ∈ a.direction.path block := Direction.mem_path.mpr hmem
    have henter := h.beq_enterInstr ha h' hb (h.beq_enter hg ha hlayered h' hb) hi
    have hleave := h.beq_leaveInstr ha h' hb hi henter
    rw [Facts.at_enterInstr, Facts.at_enterInstr] at henter
    rw [Facts.at_leaveInstr, Facts.at_leaveInstr] at hleave
    exact ⟨henter, hleave⟩
  have hsize := (Facts.fits_iff a.direction).mp hfits
  have hsize' := (Facts.fits_iff a.direction).mp hfits'
  refine (Facts.beq_iff a.direction).mpr
    ⟨beq_of_getD_beq a.initial (hsize.1.trans hsize'.1.symm) fun b hb ↦ ?_,
      beq_of_getD_beq a.initial (hsize.2.1.trans hsize'.2.1.symm) fun b hb ↦ ?_,
      beq_of_getD_beq a.initial (hsize.2.2.1.trans hsize'.2.2.1.symm) fun n hn ↦ ?_,
      beq_of_getD_beq a.initial (hsize.2.2.2.trans hsize'.2.2.2.symm) fun n hn ↦ ?_⟩
  · exact (hblock b (hsize.1 ▸ hb)).1
  · exact (hblock b (hsize.2.1 ▸ hb)).2
  · exact (hinstr n (hsize.2.2.1 ▸ hn)).1
  · exact (hinstr n (hsize.2.2.2 ▸ hn)).2

/-! ### Sweeps -/

omit [EquivBEq L] in
theorem through_congr (ha : a.Respectful) (path : List Instr) {x x' : L} (h : x == x') :
    a.through path x == a.through path x' := by
  induction path generalizing x x' with
  | nil => exact h
  | cons i rest ih => exact ih (ha.transfer_congr i h)

omit [BEq L] [EquivBEq L] in
theorem Threaded.eq_through {facts : Facts L} {path : List Instr} {x y : L}
    (h : a.Threaded facts path x y) : y = a.through path x := by
  induction path generalizing x with
  | nil => exact h.symm
  | cons i rest ih => exact ih h.2.2

/-- A visit of a consistent block reports no change. -/
theorem Consistent.visit_unchanged (ha : a.Respectful) {facts : Facts L} {b : Nat} {block : Block}
    (h : a.Consistent facts b block) : (a.visit b block facts).2 = false := by
  obtain ⟨x, y, henter, hthreaded, hleave, hx⟩ := h
  have hentering : some (a.gather facts block) == (facts.blockEnter a.direction)[b]? := by
    rw [henter, Option.some_beq_some]
    exact BEq.symm hx
  have hleaving : some (a.passThrough block facts) == (facts.blockLeave a.direction)[b]? := by
    rw [hleave, passThrough_eq, hthreaded.eq_through, Option.some_beq_some]
    exact through_congr ha _ (BEq.symm hx)
  rw [visit_changed, hentering, hleaving]
  rfl

/-- All blocks below a height are consistent. -/
structure SettledBelow (a : Analysis L) (g : FlowGraph) (height : Nat → Nat) (k : Nat)
    (facts : Facts L) : Prop where
  fits : facts.Fits g
  consistent : ∀ {b : Nat} {block : Block}, g.block? b = some block → height b < k →
    a.Consistent facts b block

namespace SettledBelow

variable {k b c : Nat} {block other : Block} {facts : Facts L}

/-- Up to the height in question, a visit makes its block consistent and keeps the others so: what
feeds them is settled. -/
theorem consistent_visit (hg : g.WellFormed) (ha : a.Respectful)
    (hlayered : a.direction.Layered g height) (h : a.SettledBelow g height k facts)
    (hb : g.block? b = some block) (hc : g.block? c = some other) (hk : height c ≤ k)
    (hvisited : c = b ∨ a.Consistent facts c other) :
    a.Consistent (a.visit b block facts).1 c other := by
  refine Analysis.consistent_visit hg ha hb hc h.fits ?_ hvisited
  by_cases hsource : b ∈ a.direction.sources other
  · have hlt : height b < height c := hlayered.lt_of_feeds ⟨other, hc, hsource⟩
    exact Or.inl ((h.consistent hb (hlt.trans_le hk)).visit_unchanged ha)
  · exact Or.inr hsource

theorem visit (hg : g.WellFormed) (ha : a.Respectful) (hlayered : a.direction.Layered g height)
    (h : a.SettledBelow g height k facts) (hb : g.block? b = some block) :
    a.SettledBelow g height k (a.visit b block facts).1 :=
  ⟨fits_visit h.fits b block, fun hc hlt ↦
    h.consistent_visit hg ha hlayered hb hc hlt.le (Or.inr (h.consistent hc hlt))⟩

/-- A part of a sweep settles the blocks of the next height that are in it. -/
theorem foldl_sweepBlock (hg : g.WellFormed) (ha : a.Respectful)
    (hlayered : a.direction.Layered g height) {blocks : List Nat}
    (hblocks : ∀ b ∈ blocks, b < g.blockCount) {state : Facts L × Bool}
    (h : a.SettledBelow g height k state.1) :
    a.SettledBelow g height k (blocks.foldl (a.sweepBlock g) state).1 ∧
      ∀ {c : Nat} {other : Block}, g.block? c = some other → height c ≤ k →
        c ∈ blocks ∨ a.Consistent state.1 c other →
        a.Consistent (blocks.foldl (a.sweepBlock g) state).1 c other := by
  induction blocks generalizing state with
  | nil => exact ⟨h, fun _ _ hvisited ↦ hvisited.resolve_left List.not_mem_nil⟩
  | cons b rest ih =>
    obtain ⟨hlt, hrest⟩ := List.forall_mem_cons.mp hblocks
    obtain ⟨block, hb⟩ := FlowGraph.exists_block?_of_lt hlt
    have hvisit : a.SettledBelow g height k (a.sweepBlock g state b).1 := by
      rw [sweepBlock_of_block? hb]
      exact h.visit hg ha hlayered hb
    obtain ⟨hsettled, hconsistent⟩ := ih hrest hvisit
    refine ⟨hsettled, fun {c other} hc hk hvisited ↦ hconsistent hc hk ?_⟩
    by_cases hmem : c ∈ rest
    · exact Or.inl hmem
    · rw [sweepBlock_of_block? hb]
      refine Or.inr (h.consistent_visit hg ha hlayered hb hc hk ?_)
      exact hvisited.imp_left fun hcons ↦ (List.mem_cons.mp hcons).resolve_right hmem

theorem sweep (hg : g.WellFormed) (ha : a.Respectful) (hlayered : a.direction.Layered g height)
    (h : a.SettledBelow g height k facts) :
    a.SettledBelow g height (k + 1) (a.sweep g facts).1 := by
  have horder : ∀ b ∈ a.direction.order g, b < g.blockCount := fun b hb ↦ mem_order.mp hb
  have hstate : a.SettledBelow g height k (facts, false).1 := h
  obtain ⟨hsettled, hconsistent⟩ := hstate.foldl_sweepBlock hg ha hlayered horder
  refine ⟨hsettled.fits, fun hb hlt ↦ hconsistent hb (Nat.le_of_lt_succ hlt) (Or.inl ?_)⟩
  exact mem_order.mpr (FlowGraph.lt_blockCount_of_block? hb)

/-- Once all blocks are settled, a sweep reports no change. -/
theorem sweep_unchanged (hg : g.WellFormed) (ha : a.Respectful)
    (hlayered : a.direction.Layered g height) (h : a.SettledBelow g height g.blockCount facts) :
    (a.sweep g facts).2 = false := by
  refine (List.foldlRecOn (motive := fun state : Facts L × Bool ↦
    a.SettledBelow g height g.blockCount state.1 ∧ state.2 = false) (a.direction.order g) _
    ⟨h, rfl⟩ fun state hstate b hb ↦ ?_).2
  have hlt := mem_order.mp hb
  obtain ⟨block, hblock⟩ := FlowGraph.exists_block?_of_lt hlt
  have hquiet := (hstate.1.consistent hblock (hlayered.height_lt hlt)).visit_unchanged ha
  rw [sweepBlock_of_block? hblock, hstate.2, hquiet]
  exact ⟨hstate.1.visit hg ha hlayered hblock, rfl⟩

end SettledBelow

/-- One sweep for each height settles all blocks, and one more finds that nothing changes. -/
theorem solveNaive_ok_of_layered (hg : g.WellFormed) (ha : a.Respectful)
    (hlayered : a.direction.Layered g height) {limit : Nat} (hlimit : g.blockCount + 1 ≤ limit)
    (start : Facts L) : ∃ stats, (a.solveNaive g limit start).outcome = .ok stats := by
  refine solveNaive_ok_of_settled fun _ ↦ iterateUntil_done_of_countdown Sweeping.settled
    (P := fun n s ↦ s.settled = false →
      ∃ k ≤ g.blockCount, k + n = g.blockCount + 1 ∧ a.SettledBelow g height k s.facts)
    (fun n s hs hdone ↦ ?_) (fun _ ↦ ⟨0, Nat.zero_le _, Nat.zero_add _, ?_⟩) hlimit
  · obtain ⟨k, hk, hn, hbelow⟩ := hs hdone
    rcases hk.eq_or_lt with rfl | hlt
    · refine ⟨0, by omega, fun hunsettled ↦ ?_⟩
      simp [sweepStep, hbelow.sweep_unchanged hg ha hlayered] at hunsettled
    · exact ⟨n - 1, by omega, fun _ ↦ ⟨k + 1, hlt, by omega, hbelow.sweep hg ha hlayered⟩⟩
  · exact ⟨start.fits_fit g a.initial, fun _ hlt ↦ absurd hlt (Nat.not_lt_zero _)⟩

/-! ### Rounds of the worklist -/

/-- The queue in a round: the blocks that wait for it have some height, and those that have been
queued in it lie higher. -/
structure Round (g : FlowGraph) (height : Nat → Nat) (k : Nat) (waiting queued : List Nat)
    (s : Revisiting L) : Prop where
  queue_eq : s.work.queue = waiting ++ queued
  lt_blockCount : ∀ b ∈ s.work.queue, b < g.blockCount
  le_height : ∀ b ∈ waiting, k ≤ height b
  lt_height : ∀ b ∈ queued, k < height b

namespace Round

variable {k b : Nat} {waiting queued : List Nat} {s : Revisiting L}

omit [EquivBEq L] in
/-- A visit takes the first block of the round, and what it queues lies higher. -/
theorem worklistStep (hg : g.WellFormed) (hlayered : a.direction.Layered g height)
    (h : Round g height k (b :: waiting) queued s) :
    ∃ added, Round g height k waiting (queued ++ added) (a.worklistStep g s) := by
  have hqueue := h.queue_eq
  rw [List.cons_append] at hqueue
  obtain ⟨rest, hpop, hrest⟩ : ∃ rest, s.work.pop? = some (b, rest) ∧
      rest.queue = waiting ++ queued := by
    simp [Worklist.pop?, hqueue]
  obtain ⟨block, hb⟩ := FlowGraph.exists_block?_of_lt (h.lt_blockCount b (by simp [hqueue]))
  obtain ⟨-, added, htargets, hadded⟩ := worklistStep_of_pop? (a := a) hpop hb
  have hfeeds : ∀ c ∈ added, a.direction.Feeds g b c := fun c hc ↦
    Direction.feeds_of_mem_targets hg hb (htargets hc)
  refine ⟨added, by rw [hadded, hrest, List.append_assoc], fun c hc ↦ ?_,
    fun c hc ↦ h.le_height c (List.mem_cons_of_mem b hc), fun c hc ↦ ?_⟩
  · rw [hadded, List.mem_append] at hc
    rcases hc with hc | hc
    · refine h.lt_blockCount c ?_
      rw [hqueue, ← hrest]
      exact List.mem_cons_of_mem b hc
    · exact (hfeeds c hc).lt_blockCount
  · rcases List.mem_append.mp hc with hc | hc
    · exact h.lt_height c hc
    · exact (h.le_height b List.mem_cons_self).trans_lt (hlayered.lt_of_feeds (hfeeds c hc))

omit [BEq L] [EquivBEq L] in
theorem next (h : Round g height k [] queued s) : Round g height (k + 1) queued [] s :=
  ⟨by simpa using h.queue_eq, h.lt_blockCount, h.lt_height, by simp⟩

omit [BEq L] [EquivBEq L] in
theorem length_le (h : Round g height k waiting queued s) (hs : s.work.Sound) :
    waiting.length ≤ g.blockCount := by
  have hsub : s.work.queue ⊆ List.range g.blockCount := fun b hb ↦
    List.mem_range.mpr (h.lt_blockCount b hb)
  have hlength := (hs.nodup.subperm hsub).length_le
  rw [h.queue_eq, List.length_append, List.length_range] at hlength
  omega

omit [BEq L] [EquivBEq L] in
/-- While blocks wait, there is a round with a first block, and it leaves as many visits. -/
theorem exists_cons (hheight : ∀ {b : Nat}, b < g.blockCount → height b < g.blockCount)
    (h : Round g height k waiting queued s) (hs : s.work.Sound) (hwaits : s.work.queue ≠ []) :
    ∃ k' b waiting' queued', Round g height k' (b :: waiting') queued' s ∧
      (b :: waiting').length + g.blockCount * (g.blockCount - (k' + 1)) ≤
        waiting.length + g.blockCount * (g.blockCount - (k + 1)) := by
  cases waiting with
  | cons b waiting => exact ⟨k, b, waiting, queued, h, Nat.le_refl _⟩
  | nil =>
    cases queued with
    | nil => exact absurd h.queue_eq hwaits
    | cons b queued =>
      have hlength := h.next.length_le hs
      have hk : k < height b := h.lt_height b List.mem_cons_self
      have hlt : height b < g.blockCount := hheight (h.lt_blockCount b (by simp [h.queue_eq]))
      have hrounds : g.blockCount - (k + 1) = g.blockCount - (k + 1 + 1) + 1 := by omega
      refine ⟨k + 1, b, queued, [], h.next, ?_⟩
      rw [hrounds, Nat.mul_succ]
      omega

end Round

/-- There are at most as many rounds as blocks, and each visits a block at most once. -/
theorem solveWorklist_ok_of_layered (hg : g.WellFormed) (ha : a.Respectful)
    (hlayered : a.direction.Layered g height) {limit : Nat}
    (hlimit : g.blockCount * g.blockCount ≤ limit) (start : Facts L) :
    ∃ stats, (a.solveWorklist g limit start).outcome = .ok stats := by
  refine solveWorklist_ok_of_queue fun hblocks ↦
    iterateUntil_done_of_countdown (fun s : Revisiting L ↦ s.work.queue.isEmpty)
      (P := fun n s ↦ a.Progress g s ∧ ∃ k waiting queued, Round g height k waiting queued s ∧
        waiting.length + g.blockCount * (g.blockCount - (k + 1)) ≤ n)
      (fun n s hs hdone ↦ ?_) ⟨a.progress_initial g start, 0, a.direction.order g, [], ?_, ?_⟩
      hlimit
  · obtain ⟨hprogress, k, waiting, queued, hround, hn⟩ := hs
    obtain ⟨k, b, waiting, queued, hround, hle⟩ := hround.exists_cons hlayered.height_lt
      hprogress.sound (by simpa using hdone)
    obtain ⟨added, hnext⟩ := hround.worklistStep hg hlayered
    rw [List.length_cons] at hle
    exact ⟨_, by omega, progress_worklistStep hg ha hprogress, k, waiting, _, hnext, Nat.le_refl _⟩
  · exact ⟨(List.append_nil _).symm, fun b hb ↦ mem_order.mp hb, fun b _ ↦ Nat.zero_le _, by simp⟩
  · have hpos := FlowGraph.isEmpty_eq_false_iff.mp hblocks
    have hrounds : g.blockCount * g.blockCount =
        g.blockCount * (g.blockCount - 1) + g.blockCount := by
      rw [← Nat.mul_succ, Nat.succ_eq_add_one, Nat.sub_add_cancel hpos]
    rw [length_order, hrounds, Nat.zero_add, Nat.add_comm]

/-! ### Both solvers -/

theorem solveFrom_agree_of_layered (hg : g.WellFormed) (ha : a.Respectful)
    (hlayered : a.direction.Layered g height) {limit limit' : Nat}
    (hlimit : g.blockCount + 1 ≤ limit) (hlimit' : g.blockCount * g.blockCount ≤ limit') :
    ∃ stats stats', (a.solveFrom .naive g limit (.new g a.initial)).outcome = .ok stats ∧
      (a.solveFrom .worklist g limit' (.new g a.initial)).outcome = .ok stats' ∧
      (a.solveFrom .naive g limit (.new g a.initial)).facts ==
        (a.solveFrom .worklist g limit' (.new g a.initial)).facts := by
  have hfits := fun strategy limit ↦
    a.fits_solveFrom_of_fits strategy limit (Facts.fits_new g a.initial)
  obtain ⟨stats, hok⟩ := solveNaive_ok_of_layered hg ha hlayered hlimit (.new g a.initial)
  obtain ⟨stats', hok'⟩ := solveWorklist_ok_of_layered hg ha hlayered hlimit' (.new g a.initial)
  exact ⟨stats, stats', hok, hok', beq_of_solves hg ha hlayered (hfits .naive limit)
    (hfits .worklist limit') (solves_solveFrom hg ha hok) (solves_solveFrom hg ha hok')⟩

/-- On a built graph without cycles, a respectful analysis converges by either strategy from the
initial facts, within one sweep more than there are blocks and within the square of their number of
visits, and both leave the same facts. Constant propagation is such an analysis. -/
theorem acyclic_solvers_agree {draft : Draft} (hbuild : draft.build = .ok g)
    (hacyclic : g.Acyclic) :
    (∀ {L : Type} [BEq L] [EquivBEq L] (a : Analysis L), a.Respectful → ∀ limit limit' : Nat,
      g.blockCount + 1 ≤ limit → g.blockCount * g.blockCount ≤ limit' →
      ∃ stats stats', (a.solveNaive g limit (.new g a.initial)).outcome = .ok stats ∧
        (a.solveWorklist g limit' (.new g a.initial)).outcome = .ok stats' ∧
        (a.solveNaive g limit (.new g a.initial)).facts ==
          (a.solveWorklist g limit' (.new g a.initial)).facts) ∧
    ∀ (fold : Bool) (c c' : Config), c.strategy = .naive → g.blockCount + 1 ≤ c.limit →
      c'.strategy = .worklist → g.blockCount * g.blockCount ≤ c'.limit →
      ∃ r r', (ConstProp.analysis g fold).solve c g = .ok r ∧
        (ConstProp.analysis g fold).solve c' g = .ok r' ∧ r.sameFacts r' = true := by
  have hg := draft.wellFormed_of_build hbuild
  have hlayered := Direction.layered_card_ancestors hg hacyclic
  refine ⟨fun a ha limit limit' hlimit hlimit' ↦
    solveFrom_agree_of_layered hg ha (hlayered a.direction) hlimit hlimit',
    fun fold c c' hnaive hlimit hworklist hlimit' ↦ ?_⟩
  obtain ⟨stats, stats', hok, hok', hsame⟩ := solveFrom_agree_of_layered hg
    (ConstProp.respectful_analysis g fold) (hlayered .forward) hlimit hlimit'
  rw [← hnaive] at hok hsame
  rw [← hworklist] at hok' hsame
  exact ⟨_, _, solve_eq_ok_iff.mpr ⟨stats, hok, rfl⟩, solve_eq_ok_iff.mpr ⟨stats', hok', rfl⟩,
    Results.sameFacts_ofFacts hsame _ _ _ _⟩

/-- Three blocks in a triangle whose edges all run against the order of a forward sweep. -/
def upstream : Draft where
  blocks := #[
    #[.assign 2 (.operand (.var 1))],
    #[.assign 1 (.operand (.var 0))],
    #[.assign 0 (.operand (.const (.int 1)))]]
  edges := #[(2, 1), (1, 0), (2, 0)]
  varNames := #["x", "y", "z"]
  stray := none
  edges_nodup := by decide
  varNames_nodup := by decide

/-- Counting with sums, which breaks the laws, at the least limits; one sweep less does not
suffice. -/
theorem acyclic_solvers_agree_upstream :
    let g := upstream.toFlowGraph
    let a := Counting.analysis { initial := 1, merge := .sum } .forward
    g.Acyclic ∧ g.blockCount = 3 ∧ ¬a.Lawful ∧
      (∃ stats stats', (a.solveNaive g 4 (.new g a.initial)).outcome = .ok stats ∧
        (a.solveWorklist g 9 (.new g a.initial)).outcome = .ok stats' ∧
        (a.solveNaive g 4 (.new g a.initial)).facts ==
          (a.solveWorklist g 9 (.new g a.initial)).facts) ∧
      (a.solveNaive g 3 (.new g a.initial)).outcome = .error ⟨"CountForward", .naive, 3⟩ ∧
      ∀ fold, ∃ r r', (ConstProp.analysis g fold).solve ⟨.naive, 4, 0⟩ g = .ok r ∧
        (ConstProp.analysis g fold).solve ⟨.worklist, 0, 9⟩ g = .ok r' ∧
        r.sameFacts r' = true := by
  intro g a
  have hbuild : upstream.build = .ok g := rfl
  have hdown : (fun u v ↦ v ∈ g.succs u) ≤ fun u v ↦ u > v := by
    obtain ⟨hedge, -⟩ := Draft.eq_toFlowGraph_of_build hbuild
    have hedges : ∀ e ∈ upstream.edges.toList, e.1 > e.2 := by decide
    intro u v hv
    rw [(Draft.mem_succs_toFlowGraph (Draft.edges_lt_of_danglingEdge?_eq_none hedge) u v).1] at hv
    exact hedges _ hv
  have hacyclic : g.Acyclic := fun b hcycle ↦
    Nat.lt_irrefl b (Relation.transGen_minimal hdown b b hcycle)
  have hlawless : ¬a.Lawful := fun ha ↦ by
    have hself := ha.meet_self 1
    revert hself
    decide
  obtain ⟨hall, hconst⟩ := acyclic_solvers_agree hbuild hacyclic
  exact ⟨hacyclic, rfl, hlawless,
    hall a a.respectful_of_lawfulBEq 4 9 (by decide) (by decide), by decide +kernel,
    fun fold ↦ hconst fold _ _ rfl (by decide) rfl (by decide)⟩

end Analysis

end FlowFacts

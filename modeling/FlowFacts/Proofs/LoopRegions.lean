import FlowFacts.Proofs.NaturalLoops

/-!
Loops are strongly connected regions with one entry. A reachable node with an edge into the body,
other than to the header, is in the body itself, because it leads on to a latch without the header.
So a walk from the entry to a node of the body stays inside from where it passes the header for the
last time, and the edge that takes a walk into a loop ends at the header. Its source is outside the
body; where the header has only one predecessor there, it is on every way in, and everything else
that is comes before it.
-/

set_option autoImplicit false
set_option relaxedAutoImplicit false

namespace FlowFacts

namespace Loop.Natural

open FlowFacts.Digraph

variable {g : Digraph} {l : Loop} {b v w : Nat} {nodes : List Nat}

theorem header_mem (h : l.Natural g) : l.header ∈ l.body :=
  h.mem_body_iff.mpr (Or.inl rfl)

theorem latch_mem (h : l.Natural g) {s : Nat} (hs : s ∈ l.latches) : s ∈ l.body := by
  by_cases heq : s = l.header
  · exact heq ▸ h.header_mem
  · exact h.mem_body_iff.mpr
      (Or.inr ⟨(h.mem_latches_iff.mp hs).2.reached, s, hs, bypass_refl (Ne.symm heq)⟩)

/-- An edge into the body from a reachable node comes from inside or ends at the header. -/
theorem mem_of_mem_succs (h : l.Natural g) (hedge : w ∈ g.succs v)
    (hv : ∃ before, g.Walk g.entry before v) (hw : w ∈ l.body) (hne : w ≠ l.header) :
    v ∈ l.body := by
  by_cases heq : v = l.header
  · exact heq ▸ h.header_mem
  · obtain ⟨-, s, hs, hto⟩ := (h.mem_body_iff.mp hw).resolve_left hne
    have hstep : g.Bypass l.header v w := bypass_of_mem_succs hedge (Ne.symm heq) (Ne.symm hne)
    exact h.mem_body_iff.mpr (Or.inr ⟨hv, s, hs, hstep.trans hto⟩)

/-- A walk to a node of the body that does not come back to the header stays inside. -/
theorem forall_mem_of_walk (h : l.Natural g) (hwalk : g.Walk v nodes w)
    (hmiss : l.header ∉ nodes.tail) (hv : ∃ before, g.Walk g.entry before v) (hw : w ∈ l.body) :
    ∀ x ∈ nodes, x ∈ l.body := by
  induction hwalk with
  | refl =>
    intro x hx
    rwa [List.mem_singleton.mp hx]
  | @concat u w nodes hwalk hedge ih =>
    rw [List.tail_append_of_ne_nil hwalk.ne_nil, List.mem_append, List.mem_singleton,
      not_or] at hmiss
    obtain ⟨before, hbefore⟩ := hv
    have hu : u ∈ l.body :=
      h.mem_of_mem_succs hedge ⟨_, hbefore.trans hwalk⟩ hw (Ne.symm hmiss.2)
    intro x hx
    rcases List.mem_append.mp hx with hx | hx
    · exact ih hmiss.1 hu x hx
    · rwa [List.mem_singleton.mp hx]

/-- A walk from the entry has passed the header, and from there on it is inside. -/
theorem walk_from_header (h : l.Natural g) (hb : b ∈ l.body) :
    ∃ nodes, g.Walk l.header nodes b ∧ ∀ x ∈ nodes, x ∈ l.body := by
  obtain ⟨nodes, hwalk⟩ := h.exists_walk hb
  obtain ⟨rest, -, hmiss, hrest⟩ := hwalk.last_of_mem (h.header_dominates hb nodes hwalk)
  exact ⟨_, hrest, h.forall_mem_of_walk hrest hmiss h.exists_walk_header hb⟩

theorem walk_to_latch (h : l.Natural g) (hb : b ∈ l.body) :
    ∃ s ∈ l.latches, ∃ nodes, g.Walk b nodes s ∧ ∀ x ∈ nodes, x ∈ l.body := by
  rcases h.mem_body_iff.mp hb with rfl | ⟨hreach, s, hs, nodes, hwalk, hmiss⟩
  · obtain ⟨s, hs⟩ := h.exists_latch
    exact ⟨s, hs, h.walk_from_header (h.latch_mem hs)⟩
  · have hmiss : l.header ∉ nodes.tail := fun hmem ↦ hmiss (List.mem_of_mem_tail hmem)
    exact ⟨s, hs, nodes, hwalk, h.forall_mem_of_walk hwalk hmiss hreach (h.latch_mem hs)⟩

/-- The back edge of a latch closes a walk around the header. -/
theorem walk_to_header (h : l.Natural g) (hb : b ∈ l.body) :
    ∃ nodes, g.Walk b nodes l.header ∧ 1 < nodes.length ∧ ∀ x ∈ nodes, x ∈ l.body := by
  obtain ⟨s, hs, nodes, hwalk, hinside⟩ := h.walk_to_latch hb
  have hlength : 0 < nodes.length := List.length_pos_of_mem hwalk.source_mem
  refine ⟨_, hwalk.concat (h.mem_latches_iff.mp hs).1, ?_, fun x hx ↦ ?_⟩
  · rw [List.length_append, List.length_singleton]
    omega
  · rcases List.mem_append.mp hx with hx | hx
    · exact hinside x hx
    · rw [List.mem_singleton.mp hx]
      exact h.header_mem

/-! ### The way in -/

/-- A walk from the entry comes to the header for the first time from outside the body. -/
theorem exists_outside_pred (h : l.Natural g) (hentry : l.header ≠ g.entry)
    (hwalk : g.Walk g.entry nodes l.header) :
    ∃ p ∈ nodes, l.header ∈ g.succs p ∧ p ∉ l.body ∧ ∃ before, g.Walk g.entry before p := by
  obtain ⟨front, hfront, hmiss, hfirst⟩ := hwalk.first_of_mem hwalk.target_mem
  obtain ⟨before, p, heq, hbefore, hedge⟩ := hfirst.last_step (Ne.symm hentry)
  obtain rfl : front = before := List.append_cancel_right heq
  have hmem : p ∈ nodes := hfront.subset (List.mem_append_left _ hbefore.target_mem)
  exact ⟨p, hmem, hedge, fun hp ↦ hmiss (h.header_dominates hp front hbefore), front, hbefore⟩

/-- If only one node outside the body has an edge to the header, it is reachable and the closest
dominator of the header. -/
theorem closestDominator_of_only_pred (h : l.Natural g) (hentry : l.header ≠ g.entry) {p : Nat}
    (honly : ∀ q, l.header ∈ g.succs q → q ∉ l.body → q = p) :
    (∃ nodes, g.Walk g.entry nodes p) ∧ p ∉ l.body ∧ g.ClosestDominator p l.header := by
  have harrive : ∀ {nodes}, g.Walk g.entry nodes l.header → p ∈ nodes ∧ l.header ∈ g.succs p ∧
      p ∉ l.body ∧ ∃ before, g.Walk g.entry before p := by
    intro nodes hwalk
    obtain ⟨q, hmem, hedge, hout, hreach⟩ := h.exists_outside_pred hentry hwalk
    obtain rfl := honly q hedge hout
    exact ⟨hmem, hedge, hout, hreach⟩
  obtain ⟨nodes, hwalk⟩ := h.exists_walk_header
  obtain ⟨-, hedge, hout, hreach⟩ := harrive hwalk
  refine ⟨hreach, hout, fun heq ↦ hout (heq ▸ h.header_mem), fun _ hto ↦ (harrive hto).1, ?_⟩
  -- A walk to the node goes on to the header, so it has met whatever dominates the header.
  exact fun b hne hb ↦ hb.pred hedge hne

end Loop.Natural

namespace Digraph

variable {g : Digraph} {header p : Nat} {body : BitSet}

/-- A preheader is the only predecessor of the header outside the body. -/
theorem eq_of_loopPreheader (h : g.loopPreheader header body = some p) {q : Nat}
    (hq : q ∈ g.preds header) (hout : q ∉ body) : q = p := by
  unfold loopPreheader at h
  split at h
  · next only honly =>
    have hmem : q ∈ (g.preds header).filter (!body.contains ·) :=
      List.mem_filter.mpr ⟨hq, by simpa [BitSet.mem_iff] using hout⟩
    rw [honly, List.mem_singleton] at hmem
    rw [hmem, Option.some.inj h]
  · cases h

end Digraph

namespace LoopNest

open FlowFacts.Digraph

theorem preheader_of_mem {g : Digraph} {l : Loop} (hl : l ∈ (ofDigraph g).loops) :
    l.preheader = g.loopPreheader l.header l.body := by
  rw [loops_eq] at hl
  obtain ⟨h, -, rfl⟩ := List.mem_map.mp hl
  rw [Digraph.withBorder]

variable {g : FlowGraph} {draft : Draft} {l : Loop}

/-- On a built graph, a loop has its header and is strongly connected: inside the body a walk leads
from the header to every block, and one of at least one edge from every block to the header. An edge
into the body from a reachable block outside ends at the header. -/
theorem loop_single_entry_connected (hbuild : draft.build = .ok g) (hl : l ∈ g.loops.loops) :
    l.header ∈ l.body ∧
      (∀ b ∈ l.body,
        (∃ nodes, g.toDigraph.Walk l.header nodes b ∧ ∀ x ∈ nodes, x ∈ l.body) ∧
        ∃ nodes, g.toDigraph.Walk b nodes l.header ∧ 1 < nodes.length ∧ ∀ x ∈ nodes, x ∈ l.body) ∧
      ∀ u b, b ∈ g.succs u → (∃ nodes, g.toDigraph.Walk g.entry nodes u) → u ∉ l.body →
        b ∈ l.body → b = l.header := by
  have hg := linked_of_mem_loops (draft.wellFormed_of_build hbuild) hl
  have hnatural := natural_of_mem hg hl
  refine ⟨hnatural.header_mem,
    fun b hb ↦ ⟨hnatural.walk_from_header hb, hnatural.walk_to_header hb⟩,
    fun u b hedge hreach hout hb ↦ ?_⟩
  by_contra hne
  rw [← succs_toDigraph] at hedge
  exact hout (hnatural.mem_of_mem_succs hedge hreach hb hne)

/-- The nested loops by header, body and preheader. -/
theorem exists_nestedLoop (header : Nat) (body : List Nat) (preheader : Option Nat)
    (h : (header, body, preheader) ∈ [(1, [1, 2, 3], some 0), (2, [2, 3], some 1)]) :
    ∃ l ∈ nestedLoops.toFlowGraph.loops.loops,
      l.header = header ∧ l.body.toList = body ∧ l.preheader = preheader := by
  have hloops : (nestedLoops.toFlowGraph.loops.loops.map fun l ↦
      (l.header, l.body.toList, l.preheader)) =
        [(1, [1, 2, 3], some 0), (2, [2, 3], some 1)] := by
    decide +kernel
  rw [← hloops] at h
  obtain ⟨l, hl, heq⟩ := List.mem_map.mp h
  simp only [Prod.mk.injEq] at heq
  exact ⟨l, hl, heq⟩

/-- In the outer one of the nested loops, a walk goes round from its last block. The edge to that
block from an unreachable one is no way in. -/
theorem loop_single_entry_connected_nestedLoops :
    let g := nestedLoops.toFlowGraph
    ∃ l ∈ g.loops.loops, l.header = 1 ∧ l.body.toList = [1, 2, 3] ∧
      (∃ nodes, g.toDigraph.Walk 3 nodes 1 ∧ 1 < nodes.length ∧ ∀ x ∈ nodes, x ∈ l.body) ∧
      (∀ u b, b ∈ g.succs u → (∃ nodes, g.toDigraph.Walk g.entry nodes u) → u ∉ l.body →
        b ∈ l.body → b = 1) ∧
      3 ∈ g.succs 5 ∧ ¬∃ nodes, g.toDigraph.Walk g.entry nodes 5 := by
  intro g
  obtain ⟨l, hl, hheader, hbody, -⟩ :=
    exists_nestedLoop 1 [1, 2, 3] (some 0) (by decide)
  have hbuild : nestedLoops.build = .ok g := rfl
  have hedge : 3 ∈ g.succs 5 := by decide
  have hout : 5 ∉ l.body := by
    rw [← BitSet.mem_toList, hbody]
    decide
  have hmem : 3 ∈ l.body := by
    rw [← BitSet.mem_toList, hbody]
    decide
  obtain ⟨-, hwalks, hentry⟩ := loop_single_entry_connected hbuild hl
  rw [hheader] at hwalks hentry
  exact ⟨l, hl, hheader, hbody, (hwalks 3 hmem).2, hentry, hedge,
    fun hreach ↦ absurd (hentry 5 3 hedge hreach hout hmem) (by decide)⟩

/-- On a built graph, the preheader of a loop that the entry does not head is reachable and outside
the body. It is the immediate dominator of the header, and every walk from the entry into the loop
passes it. -/
theorem preheader_dominates_loop (hbuild : draft.build = .ok g) (hl : l ∈ g.loops.loops)
    (hentry : l.header ≠ g.entry) {p : Nat} (hp : l.preheader = some p) :
    (∃ nodes, g.toDigraph.Walk g.entry nodes p) ∧ g.loops.dominators.isReachable p = true ∧
      p ∉ l.body ∧ g.loops.dominators.immediate? l.header = some p ∧
      ∀ b ∈ l.body, ∀ nodes, g.toDigraph.Walk g.entry nodes b → p ∈ nodes := by
  have hg := linked_of_mem_loops (draft.wellFormed_of_build hbuild) hl
  have hnatural := natural_of_mem hg hl
  rw [preheader_of_mem hl] at hp
  obtain ⟨hreach, hout, hclosest⟩ := hnatural.closestDominator_of_only_pred hentry
    fun q hedge hq ↦ eq_of_loopPreheader hp (hg.mem_preds_iff.mpr hedge) hq
  obtain ⟨before, hbefore⟩ := hnatural.exists_walk_header
  have himmediate := (Dominators.immediate?_eq_some_iff hg.rooted (hg.lt_of_walk hbefore) hentry
    ⟨before, hbefore⟩).mpr hclosest
  exact ⟨hreach, hg.isReachable_iff.mpr hreach, hout, himmediate,
    fun b hb ↦ hclosest.dominates.trans (hnatural.header_dominates hb)⟩

/-- The inner one of the nested loops has its preheader inside the outer one. -/
theorem preheader_dominates_loop_nestedLoops :
    let g := nestedLoops.toFlowGraph
    ∃ l ∈ g.loops.loops, l.header = 2 ∧ l.preheader = some 1 ∧
      g.loops.dominators.isReachable 1 = true ∧ 1 ∉ l.body ∧
      g.loops.dominators.immediate? 2 = some 1 ∧
      ∀ b ∈ l.body, ∀ nodes, g.toDigraph.Walk g.entry nodes b → 1 ∈ nodes := by
  intro g
  obtain ⟨l, hl, hheader, -, hpreheader⟩ :=
    exists_nestedLoop 2 [2, 3] (some 1) (by decide)
  have hentry : l.header ≠ g.entry := by
    rw [hheader]
    decide
  obtain ⟨-, hreach, hout, himmediate, hpass⟩ :=
    preheader_dominates_loop (show nestedLoops.build = .ok g from rfl) hl hentry hpreheader
  rw [hheader] at himmediate
  exact ⟨l, hl, hheader, hpreheader, hreach, hout, himmediate, hpass⟩

end LoopNest

end FlowFacts

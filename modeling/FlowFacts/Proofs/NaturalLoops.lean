import Mathlib.Algebra.BigOperators.Group.Finset.Basic
import Mathlib.Algebra.Order.BigOperators.Group.Finset
import FlowFacts.Proofs.CollectedLoops

/-!
Natural loops are exact. The walk that adds a latch to a body goes back from it and stops at the
nodes that the body has; it ends within its budget, because each new node uses up its own
predecessor list. By then the body has every reachable predecessor of each of its nodes but the
header, so it has every reachable node from which a latch can be reached without the header, and it
never got any other. A walk from the entry to such a node goes on to a latch, so it passes the
header.
-/

set_option autoImplicit false
set_option relaxedAutoImplicit false

namespace FlowFacts

namespace Digraph

variable {g : Digraph} {header u v w : Nat} {pending : List Nat} {body reachable : BitSet}

/-! ### The walk that collects a body -/

/-- The entries of predecessor lists that the walk has not come to: those of nodes outside the
body. -/
def unwalked (g : Digraph) (body : BitSet) : Nat :=
  ∑ v ∈ (Finset.range g.size).filter (· ∉ body), (g.preds v).length

theorem unwalked_insert (hv : v ∉ body) :
    (g.preds v).length + g.unwalked (body.insert v) = g.unwalked body := by
  by_cases hlt : v < g.size
  · have hsplit : (Finset.range g.size).filter (· ∉ body) =
        insert v ((Finset.range g.size).filter (· ∉ body.insert v)) := by
      ext u
      by_cases hu : u = v <;> simp [hu, hlt, hv]
    rw [unwalked, unwalked, hsplit, Finset.sum_insert (by simp)]
  · have hsame : (Finset.range g.size).filter (· ∉ body.insert v) =
        (Finset.range g.size).filter (· ∉ body) := by
      refine Finset.filter_congr fun u hu ↦ ?_
      have hne : u ≠ v := fun heq ↦ hlt (heq ▸ Finset.mem_range.mp hu)
      simp [hne]
    rw [preds_of_size_le (Nat.not_lt.mp hlt), unwalked, unwalked, hsame]
    exact Nat.zero_add _

theorem unwalked_le (g : Digraph) (body : BitSet) :
    g.unwalked body ≤ (g.nodes.toList.flatMap Neighbours.preds).length := by
  have hlists : g.nodes.toList.map Neighbours.preds = (List.range g.size).map g.preds := by
    refine List.ext_getElem (by simp [size]) fun v hv hv' ↦ ?_
    have hlt : v < g.nodes.size := by simpa using hv
    simp [preds, hlt]
  have hsum : ∀ n, ∑ v ∈ Finset.range n, (g.preds v).length =
      ((List.range n).map g.preds).flatten.length := by
    intro n
    induction n with
    | zero => rfl
    | succ n ih => rw [Finset.sum_range_succ, ih, List.range_succ]; simp
  rw [List.flatMap_def, hlists, ← hsum]
  exact Finset.sum_le_sum_of_subset (Finset.filter_subset _ _)

/-- A body that lacks nothing: it has the reachable predecessors of all its nodes but the header. -/
def Saturated (g : Digraph) (reachable : BitSet) (header : Nat) (body : BitSet) : Prop :=
  ∀ v ∈ body, v ≠ header → ∀ p ∈ g.preds v, p ∈ reachable → p ∈ body

/-- Whatever the body lacks is pending. -/
def Awaits (g : Digraph) (reachable : BitSet) (header : Nat) (pending : List Nat)
    (body : BitSet) : Prop :=
  ∀ v ∈ body, v ≠ header → ∀ p ∈ g.preds v, p ∈ reachable → p ∈ body ∨ p ∈ pending

theorem Saturated.awaits (h : g.Saturated reachable header body) (pending : List Nat) :
    g.Awaits reachable header pending body := fun v hv hne p hp hreach ↦
  Or.inl (h v hv hne p hp hreach)

theorem Awaits.saturated (h : g.Awaits reachable header [] body) :
    g.Saturated reachable header body := fun v hv hne p hp hreach ↦
  (h v hv hne p hp hreach).resolve_right List.not_mem_nil

theorem Awaits.skip (hw : w ∈ body) (h : g.Awaits reachable header (w :: pending) body) :
    g.Awaits reachable header pending body := by
  intro v hv hne p hp hreach
  rcases h v hv hne p hp hreach with hmem | hmem
  · exact Or.inl hmem
  · exact (List.mem_cons.mp hmem).imp_left fun heq : p = w ↦ heq ▸ hw

theorem Awaits.take (h : g.Awaits reachable header (w :: pending) body) :
    g.Awaits reachable header (((g.preds w).filter reachable.contains).reverse ++ pending)
      (body.insert w) := by
  intro v hv hne p hp hreach
  rw [BitSet.mem_insert, List.mem_append, List.mem_reverse, List.mem_filter]
  rcases BitSet.mem_insert.mp hv with rfl | hv
  · exact Or.inr (Or.inl ⟨hp, hreach⟩)
  · rcases h v hv hne p hp hreach with hmem | hmem
    · exact Or.inl (Or.inr hmem)
    · exact (List.mem_cons.mp hmem).imp Or.inl Or.inr

/-- A new node is paid for by its own predecessor list. -/
theorem length_pushed_add_unwalked_le (g : Digraph) (reachable : BitSet) (pending : List Nat)
    (hw : w ∉ body) :
    (((g.preds w).filter reachable.contains).reverse ++ pending).length +
      g.unwalked (body.insert w) ≤ pending.length + g.unwalked body := by
  have hunwalked : (g.preds w).length + g.unwalked (body.insert w) = g.unwalked body :=
    unwalked_insert hw
  have hpushed := List.length_filter_le reachable.contains (g.preds w)
  rw [List.length_append, List.length_reverse]
  omega

/-- Within its budget the walk adds all pending nodes and ends saturated, if all that the body lacks
is pending. -/
theorem saturated_loopBody {budget : Nat} (hbudget : pending.length + g.unwalked body ≤ budget)
    (hawaits : g.Awaits reachable header pending body) :
    (∀ v, v ∈ pending ∨ v ∈ body → v ∈ g.loopBody reachable budget pending body) ∧
      g.Saturated reachable header (g.loopBody reachable budget pending body) := by
  fun_induction loopBody g reachable budget pending body with
  | case1 pending body =>
    obtain rfl : pending = [] := List.length_eq_zero_iff.mp (by omega)
    exact ⟨fun v hv ↦ hv.resolve_left List.not_mem_nil, hawaits.saturated⟩
  | case2 budget body => exact ⟨fun v hv ↦ hv.resolve_left List.not_mem_nil, hawaits.saturated⟩
  | case3 budget w pending body hw ih =>
    rw [List.length_cons] at hbudget
    obtain ⟨hadded, hsaturated⟩ := ih (by omega) (hawaits.skip hw)
    refine ⟨fun v hv ↦ hadded v ?_, hsaturated⟩
    rcases hv with hv | hv
    · exact (List.mem_cons.mp hv).elim (fun heq ↦ Or.inr (heq ▸ hw)) Or.inl
    · exact Or.inr hv
  | case4 budget w pending body hw ih =>
    have hpaid := g.length_pushed_add_unwalked_le reachable pending hw
    rw [List.length_cons] at hbudget
    obtain ⟨hadded, hsaturated⟩ := ih (by omega) hawaits.take
    refine ⟨fun v hv ↦ hadded v ?_, hsaturated⟩
    rw [BitSet.mem_insert, List.mem_append]
    rcases hv with hv | hv
    · exact (List.mem_cons.mp hv).elim (fun heq ↦ Or.inr (Or.inl heq)) fun hv ↦ Or.inl (Or.inr hv)
    · exact Or.inr (Or.inr hv)

/-- The walk adds nothing but what is handed on from the pending nodes to reachable predecessors,
and nothing past the header. -/
theorem forall_mem_loopBody {P : Nat → Prop} (budget : Nat) (hheader : header ∈ body)
    (hpending : ∀ v ∈ pending, P v) (hbody : ∀ v ∈ body, P v)
    (hback : ∀ v, P v → v ≠ header → ∀ p ∈ g.preds v, p ∈ reachable → P p) :
    ∀ v ∈ g.loopBody reachable budget pending body, P v := by
  fun_induction loopBody g reachable budget pending body with
  | case1 pending body => exact hbody
  | case2 budget body => exact hbody
  | case3 budget w pending body hw ih =>
    exact ih hheader (fun v hv ↦ hpending v (List.mem_cons_of_mem w hv)) hbody
  | case4 budget w pending body hw ih =>
    have hPw := hpending w List.mem_cons_self
    have hne : w ≠ header := fun heq ↦ hw (heq ▸ hheader)
    refine ih (BitSet.mem_insert.mpr (Or.inr hheader)) (fun v hv ↦ ?_) fun v hv ↦ ?_
    · rcases List.mem_append.mp hv with hv | hv
      · obtain ⟨hpred, hreach⟩ := List.mem_filter.mp (List.mem_reverse.mp hv)
        exact hback w hPw hne v hpred hreach
      · exact hpending v (List.mem_cons_of_mem w hv)
    · rcases BitSet.mem_insert.mp hv with rfl | hv
      · exact hPw
      · exact hbody v hv

/-- Backwards along a walk that does not pass the header, a saturated body has every node. -/
theorem Saturated.mem_of_walk (hg : g.Linked)
    (h : g.Saturated (Dominators.ofDigraph g).reachable header body) {nodes : List Nat}
    (hwalk : g.Walk v nodes w) (hmiss : header ∉ nodes)
    (hreach : ∃ before, g.Walk g.entry before v) (hw : w ∈ body) : v ∈ body := by
  induction hwalk with
  | refl => exact hw
  | @concat u w nodes hwalk hsucc ih =>
    obtain ⟨hmiss, hne⟩ : header ∉ nodes ∧ header ≠ w := by simpa using hmiss
    obtain ⟨before, hbefore⟩ := hreach
    exact ih hmiss (h w hw (Ne.symm hne) u (hg.mem_preds_iff.mpr hsucc)
      (hg.isReachable_iff.mpr ⟨_, hbefore.trans hwalk⟩))

/-- The body is what the latches that have been added call for. -/
structure Grown (g : Digraph) (l : Loop) : Prop where
  header_mem : l.header ∈ l.body
  latch_mem : ∀ s ∈ l.latches, s ∈ l.body
  saturated : g.Saturated (Dominators.ofDigraph g).reachable l.header l.body
  bypass : ∀ v ∈ l.body, v = l.header ∨
    (∃ nodes, g.Walk g.entry nodes v) ∧ ∃ s ∈ l.latches, g.Bypass l.header v s

theorem grown_ofHeader (g : Digraph) (header : Nat) : g.Grown (.ofHeader g.size header) := by
  have hbody : ∀ {v}, v ∈ (Loop.ofHeader g.size header).body ↔ v = header := by
    simp [Loop.ofHeader]
  refine ⟨hbody.mpr rfl, fun s hs ↦ ?_, fun v hv hne ↦ absurd (hbody.mp hv) hne,
    fun v hv ↦ Or.inl (hbody.mp hv)⟩
  simp [Loop.ofHeader] at hs

/-- The walk back from a new latch ends where earlier ones have been. -/
theorem Grown.addLatch (hg : g.Linked) {l : Loop} (h : g.Grown l)
    (hlatch : ∃ nodes, g.Walk g.entry nodes u) :
    g.Grown (g.addLatch (Dominators.ofDigraph g) l u) := by
  have hlatches : ∀ {s}, s ∈ (g.addLatch (Dominators.ofDigraph g) l u).latches ↔
      s = u ∨ s ∈ l.latches := BitSet.mem_insert
  have hbudget : [u].length + g.unwalked l.body ≤ g.bodyBudget :=
    Nat.add_le_add_left (g.unwalked_le _) _
  obtain ⟨hadded, hsaturated⟩ := saturated_loopBody hbudget (h.saturated.awaits _)
  refine ⟨hadded _ (Or.inr h.header_mem), fun s hs ↦ hadded s ?_, hsaturated, ?_⟩
  · exact (hlatches.mp hs).imp (fun heq ↦ List.mem_singleton.mpr heq) (h.latch_mem s)
  · refine forall_mem_loopBody _ h.header_mem (fun s hs ↦ ?_) (fun v hv ↦ ?_)
      fun v hv hne p hp hreach ↦ ?_
    · obtain rfl := List.mem_singleton.mp hs
      by_cases heq : s = l.header
      · exact Or.inl heq
      · exact Or.inr ⟨hlatch, s, hlatches.mpr (Or.inl rfl), bypass_refl (Ne.symm heq)⟩
    · refine (h.bypass v hv).imp_right fun ⟨hwalk, s, hs, hbypass⟩ ↦ ?_
      exact ⟨hwalk, s, hlatches.mpr (Or.inr hs), hbypass⟩
    · obtain ⟨-, s, hs, hbypass⟩ := hv.resolve_left hne
      by_cases heq : p = l.header
      · exact Or.inl heq
      · have hstep := bypass_of_mem_succs (hg.mem_preds_iff.mp hp) (Ne.symm heq) (Ne.symm hne)
        exact Or.inr ⟨hg.isReachable_iff.mp hreach, s, hs, hstep.trans hbypass⟩

/-- The body of a loop is the header and the reachable nodes from which a latch can be reached
without passing the header. -/
theorem Grown.mem_body_iff (hg : g.Linked) {l : Loop} (h : g.Grown l) :
    v ∈ l.body ↔ v = l.header ∨
      (∃ nodes, g.Walk g.entry nodes v) ∧ ∃ s ∈ l.latches, g.Bypass l.header v s := by
  refine ⟨h.bypass v, ?_⟩
  rintro (rfl | ⟨hreach, s, hs, nodes, hwalk, hmiss⟩)
  · exact h.header_mem
  · exact h.saturated.mem_of_walk hg hwalk hmiss hreach (h.latch_mem s hs)

theorem grown_loopOf (hg : g.Linked) (edges : List (Nat × Nat)) (header : Nat)
    (hedges : ∀ s ∈ sourcesOf edges header, ∃ nodes, g.Walk g.entry nodes s) :
    g.Grown (g.loopOf (Dominators.ofDigraph g) edges header) :=
  List.foldlRecOn (motive := g.Grown) (sourcesOf edges header) _ (g.grown_ofHeader header)
    fun _ hl s hs ↦ hl.addLatch hg (hedges s hs)

theorem mem_latches_loopOf (g : Digraph) (d : Dominators) (edges : List (Nat × Nat))
    (header v : Nat) : v ∈ (g.loopOf d edges header).latches ↔ (v, header) ∈ edges := by
  have hfold : ∀ (sources : List Nat) (l : Loop),
      v ∈ (sources.foldl (g.addLatch d) l).latches ↔ v ∈ l.latches ∨ v ∈ sources := by
    intro sources
    induction sources with
    | nil => simp
    | cons s rest ih =>
      intro l
      rw [List.foldl_cons, ih, List.mem_cons, addLatch, BitSet.mem_insert]
      tauto
  rw [loopOf, hfold]
  simp [Loop.ofHeader, sourcesOf]

/-! ### Back edges -/

/-- The source is reachable, and the target is on every walk to it. -/
structure BackEdge (g : Digraph) (source target : Nat) : Prop where
  reached : ∃ nodes, g.Walk g.entry nodes source
  dominates : g.Dominates target source

theorem flatMap_filter_eq {α β : Type} {keep : α → Bool} {f f' : α → List β} {items : List α}
    (hkeep : ∀ a ∈ items, f' a = if keep a then f a else []) :
    (items.filter keep).flatMap f = items.flatMap f' := by
  induction items with
  | nil => rfl
  | cons a rest ih =>
    obtain ⟨ha, hrest⟩ := List.forall_mem_cons.mp hkeep
    rw [List.flatMap_cons, ha, ← ih hrest, List.filter_cons]
    split <;> rfl

/-- The back edges of a graph, in the order of its edges. -/
theorem backEdges_eq_filter (hg : g.Linked) {isBack : Nat × Nat → Bool}
    (hback : ∀ e, isBack e = true ↔ g.BackEdge e.1 e.2) :
    g.backEdges (Dominators.ofDigraph g) =
      ((List.range g.size).flatMap fun s ↦ (g.succs s).map fun h ↦ (s, h)).filter isBack := by
  rw [backEdges, List.filter_flatMap]
  refine flatMap_filter_eq fun s _ ↦ ?_
  rw [List.filter_map]
  split_ifs with hreach
  · refine congrArg _ (List.filter_congr fun h _ ↦ ?_)
    obtain ⟨nodes, hwalk⟩ := hg.isReachable_iff.mp hreach
    rw [Bool.eq_iff_iff, Function.comp_apply, hback, hg.dominates_iff hwalk]
    exact ⟨BackEdge.dominates, fun hdom ↦ ⟨⟨nodes, hwalk⟩, hdom⟩⟩
  · refine List.map_eq_nil_iff.mpr (List.filter_eq_nil_iff.mpr fun h _ hisBack ↦ hreach ?_)
    exact hg.isReachable_iff.mpr ((hback _).mp hisBack).reached

open Classical in
theorem mem_backEdges (hg : g.Linked) :
    (u, v) ∈ g.backEdges (Dominators.ofDigraph g) ↔ v ∈ g.succs u ∧ g.BackEdge u v := by
  have hback : ∀ e : Nat × Nat, decide (g.BackEdge e.1 e.2) = true ↔ g.BackEdge e.1 e.2 :=
    fun e ↦ decide_eq_true_iff
  rw [backEdges_eq_filter hg hback]
  simp only [List.mem_filter, List.mem_flatMap, List.mem_range, List.mem_map, decide_eq_true_iff]
  constructor
  · rintro ⟨⟨s, -, h, hsucc, heq⟩, hback⟩
    cases heq
    exact ⟨hsucc, hback⟩
  · rintro ⟨hsucc, hback⟩
    exact ⟨⟨u, lt_size_of_mem_succs hsucc, v, hsucc, rfl⟩, hback⟩

end Digraph

/-! ### Loops -/

/-- The loop of a header: its latches are the sources of the back edges to the header, and its body
is what the latches can be reached from without passing the header. -/
structure Loop.Natural (l : Loop) (g : Digraph) : Prop where
  exists_latch : ∃ s, s ∈ l.latches
  mem_latches_iff : ∀ {s : Nat}, s ∈ l.latches ↔ l.header ∈ g.succs s ∧ g.BackEdge s l.header
  mem_body_iff : ∀ {b : Nat}, b ∈ l.body ↔ b = l.header ∨
    (∃ nodes, g.Walk g.entry nodes b) ∧ ∃ s ∈ l.latches, g.Bypass l.header b s

namespace Loop.Natural

variable {g : Digraph} {l : Loop} {b : Nat}

theorem exists_walk_header (h : l.Natural g) : ∃ nodes, g.Walk g.entry nodes l.header := by
  obtain ⟨s, hs⟩ := h.exists_latch
  obtain ⟨hedge, ⟨nodes, hwalk⟩, -⟩ := h.mem_latches_iff.mp hs
  exact ⟨_, hwalk.concat hedge⟩

theorem exists_walk (h : l.Natural g) (hb : b ∈ l.body) : ∃ nodes, g.Walk g.entry nodes b := by
  rcases h.mem_body_iff.mp hb with rfl | ⟨hwalk, -⟩
  · exact h.exists_walk_header
  · exact hwalk

/-- A walk to a node of the body goes on to a latch, so it has passed the header. -/
theorem header_dominates (h : l.Natural g) (hb : b ∈ l.body) : g.Dominates l.header b := by
  rcases h.mem_body_iff.mp hb with rfl | ⟨-, s, hs, hbypass⟩
  · exact fun _ hwalk ↦ hwalk.target_mem
  · by_contra hnot
    have hmiss := (Digraph.not_dominates_iff.mp hnot).trans hbypass
    exact Digraph.not_dominates_iff.mpr hmiss (h.mem_latches_iff.mp hs).2.dominates

end Loop.Natural

namespace LoopNest

open FlowFacts.Digraph

theorem natural_of_mem {g : Digraph} (hg : g.Linked) {l : Loop} (hl : l ∈ (ofDigraph g).loops) :
    l.Natural g := by
  rw [loops_eq] at hl
  obtain ⟨h, hh, rfl⟩ := List.mem_map.mp hl
  obtain ⟨-, hany⟩ := List.mem_filter.mp hh
  obtain ⟨⟨s, t⟩, hs, ht⟩ := List.any_eq_true.mp hany
  obtain rfl : t = h := beq_iff_eq.mp ht
  have hedges : ∀ {s}, (s, t) ∈ (ofDigraph g).backEdges ↔ t ∈ g.succs s ∧ g.BackEdge s t :=
    mem_backEdges hg
  have hgrown := grown_loopOf hg (ofDigraph g).backEdges t fun s hs ↦
    (hedges.mp (by simpa [sourcesOf] using hs)).2.reached
  have hheader := g.header_loopOf (Dominators.ofDigraph g) (ofDigraph g).backEdges t
  have hlatches := g.mem_latches_loopOf (Dominators.ofDigraph g) (ofDigraph g).backEdges t
  generalize g.loopOf (Dominators.ofDigraph g) (ofDigraph g).backEdges t = l
    at hgrown hheader hlatches
  refine ⟨⟨s, (hlatches s).mpr hs⟩, fun {s} ↦ ?_, hgrown.mem_body_iff hg⟩
  rw [withBorder, hheader]
  exact (hlatches s).trans hedges

/-! ### Loops of a built graph -/

variable {g : FlowGraph}

theorem edges_eq_flatMap (g : FlowGraph) : g.edges =
    (List.range g.toDigraph.size).flatMap fun s ↦ (g.toDigraph.succs s).map fun h ↦ (s, h) := by
  simp only [size_toDigraph, succs_toDigraph]
  rfl

theorem loops_of_isEmpty (h : g.isEmpty = true) :
    g.edges = [] ∧ g.loops.backEdges = [] ∧ g.loops.loops = [] := by
  have hcount : g.blockCount = 0 := by simpa [FlowGraph.isEmpty, FlowGraph.blockCount] using h
  simp [FlowGraph.edges, FlowGraph.blockIds, FlowGraph.loops, ofDigraph, Digraph.backEdges,
    collectLoops, sortBy, hcount]

theorem linked_of_mem_loops (hg : g.WellFormed) {l : Loop} (hl : l ∈ g.loops.loops) :
    g.toDigraph.Linked := by
  cases hempty : g.isEmpty with
  | true =>
    rw [(loops_of_isEmpty hempty).2.2] at hl
    cases hl
  | false => exact linked_toDigraph hg hempty

open Classical in
/-- On a built graph, the back edges are the edges from reachable blocks to blocks on every walk to
them, in the order of the edges. There is one loop for each of their targets, in ascending order;
its latches are the sources, and its body is the header and every reachable block from which a walk
comes to a latch without passing the header. So the header dominates the body. -/
theorem loops_iff_walks {draft : Draft} (hbuild : draft.build = .ok g) :
    (g.loops.backEdges = g.edges.filter fun e ↦
      (∃ nodes, g.toDigraph.Walk g.entry nodes e.1) ∧
        ∀ nodes, g.toDigraph.Walk g.entry nodes e.1 → e.2 ∈ nodes) ∧
    (g.loops.loops.map Loop.header).Pairwise (· < ·) ∧
    (∀ h, h ∈ g.loops.loops.map Loop.header ↔ ∃ s, (s, h) ∈ g.loops.backEdges) ∧
    ∀ l ∈ g.loops.loops,
      (∀ s, s ∈ l.latches ↔ (s, l.header) ∈ g.loops.backEdges) ∧
      (∀ b, b ∈ l.body ↔ b = l.header ∨
        (∃ nodes, g.toDigraph.Walk g.entry nodes b) ∧
          ∃ s ∈ l.latches, ∃ nodes, g.toDigraph.Walk b nodes s ∧ l.header ∉ nodes) ∧
      ∀ b ∈ l.body, g.loops.dominators.dominates l.header b = true ∧
        ∀ nodes, g.toDigraph.Walk g.entry nodes b → l.header ∈ nodes := by
  have hg := draft.wellFormed_of_build hbuild
  cases hempty : g.isEmpty with
  | true =>
    obtain ⟨hedges, hback, hloops⟩ := loops_of_isEmpty hempty
    simp [hedges, hback, hloops]
  | false =>
    have hlinked := linked_toDigraph hg hempty
    have hmem : ∀ {s h}, (s, h) ∈ g.loops.backEdges ↔
        h ∈ g.toDigraph.succs s ∧ g.toDigraph.BackEdge s h := mem_backEdges hlinked
    refine ⟨?_, ?_, fun h ↦ ?_, fun l hl ↦ ?_⟩
    · rw [edges_eq_flatMap]
      refine backEdges_eq_filter hlinked fun e ↦ ?_
      rw [decide_eq_true_iff]
      exact ⟨fun h ↦ ⟨h.1, h.2⟩, fun h ↦ ⟨h.1, h.2⟩⟩
    · exact pairwise_header g.toDigraph
    · rw [FlowGraph.loops, map_header_loops]
      simp only [List.mem_filter, List.mem_range, List.any_eq_true, beq_iff_eq, Prod.exists]
      constructor
      · rintro ⟨-, s, t, hs, rfl⟩
        exact ⟨s, hs⟩
      · rintro ⟨s, hs⟩
        exact ⟨hlinked.lt_of_mem_succs (hmem.mp hs).1, s, h, hs, rfl⟩
    · have hnatural := natural_of_mem hlinked hl
      refine ⟨fun s ↦ hnatural.mem_latches_iff.trans hmem.symm, fun b ↦ hnatural.mem_body_iff,
        fun b hb ↦ ?_⟩
      obtain ⟨nodes, hwalk⟩ := hnatural.exists_walk hb
      have hdom := hnatural.header_dominates hb
      exact ⟨(hlinked.dominates_iff hwalk).mpr hdom, hdom⟩

/-- Two back edges to one header, one of them from an inner loop that an unreachable block enters,
and a cycle with two entries. -/
def nestedLoops : Draft where
  blocks := #[#[], #[], #[], #[], #[], #[], #[], #[]]
  edges := #[(0, 1), (1, 2), (2, 3), (2, 1), (3, 2), (3, 1), (5, 3), (1, 4), (4, 6), (4, 7), (6, 7),
    (7, 6)]
  varNames := #[]
  stray := none
  edges_nodup := by decide
  varNames_nodup := by decide

theorem loops_iff_walks_nestedLoops :
    let g := nestedLoops.toFlowGraph
    g.loops.backEdges = [(2, 1), (3, 2), (3, 1)] ∧
      (g.loops.loops.map fun l ↦ (l.header, l.latches.toList, l.body.toList)) =
        [(1, [2, 3], [1, 2, 3]), (2, [3], [2, 3])] ∧
      (∀ nodes, g.toDigraph.Walk g.entry nodes 3 → 1 ∈ nodes ∧ 2 ∈ nodes) ∧
      ∀ l ∈ g.loops.loops, ∀ b, b ∈ l.body ↔ b = l.header ∨
        (∃ nodes, g.toDigraph.Walk g.entry nodes b) ∧
          ∃ s ∈ l.latches, ∃ nodes, g.toDigraph.Walk b nodes s ∧ l.header ∉ nodes := by
  intro g
  have hbuild : nestedLoops.build = .ok g := rfl
  obtain ⟨hedges, -, -, hloops⟩ := loops_iff_walks hbuild
  have hback : g.loops.backEdges = [(2, 1), (3, 2), (3, 1)] := by decide +kernel
  have hwalks : ∀ e ∈ g.loops.backEdges, ∀ nodes, g.toDigraph.Walk g.entry nodes e.1 →
      e.2 ∈ nodes := by
    classical
    intro e he
    rw [hedges] at he
    exact (decide_eq_true_iff.mp (List.mem_filter.mp he).2).2
  refine ⟨hback, by decide +kernel, fun nodes hwalk ↦ ?_, fun l hl ↦ (hloops l hl).2.1⟩
  rw [hback] at hwalks
  exact ⟨hwalks (3, 1) (by decide) nodes hwalk, hwalks (3, 2) (by decide) nodes hwalk⟩

end LoopNest

end FlowFacts

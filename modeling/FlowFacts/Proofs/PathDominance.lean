import Mathlib.Data.Finset.Prod
import FlowFacts.Digraph.Dominators
import FlowFacts.Proofs.BuiltGraph
import FlowFacts.Proofs.GraphSearch

/-!
The computed dominators are those of paths. Refinement only takes members out of the candidate sets,
and never one that lies on every walk from the entry; each round but the last takes one out, so the
budget suffices for the rounds to come to rest. Then a member that a walk to a node misses would be
missing at the node before, and so on back to the entry, which has itself alone.
-/

set_option autoImplicit false
set_option relaxedAutoImplicit false

namespace FlowFacts

namespace Digraph

/-- The entry is a node, predecessors are nodes, and among nodes the two neighbour lists say the
same. -/
structure Rooted (g : Digraph) : Prop where
  entry_lt : g.entry < g.size
  lt_of_mem_preds : ∀ {u v : Nat}, u ∈ g.preds v → u < g.size
  mem_preds_iff : ∀ {u v : Nat}, u < g.size → v < g.size → (u ∈ g.preds v ↔ v ∈ g.succs u)

/-- Every walk from the entry to `b` passes `a`. -/
def Dominates (g : Digraph) (a b : Nat) : Prop :=
  ∀ nodes, g.Walk g.entry nodes b → a ∈ nodes

variable {g : Digraph} {sets : Candidates} {a u v w : Nat}

/-- What dominates a node is the node or dominates its predecessors. -/
theorem Dominates.pred (h : g.Dominates a w) (hw : w ∈ g.succs v) (hne : a ≠ w) :
    g.Dominates a v := fun nodes hwalk ↦ by
  rcases List.mem_append.mp (h _ (hwalk.concat hw)) with ha | ha
  · exact ha
  · exact absurd (List.mem_singleton.mp ha) hne

/-- The entry is a node, and the two neighbour lists say the same everywhere. So they name nodes
only. -/
structure Linked (g : Digraph) : Prop where
  entry_lt : g.entry < g.size
  mem_preds_iff : ∀ {u v : Nat}, u ∈ g.preds v ↔ v ∈ g.succs u

theorem Linked.rooted (hg : g.Linked) : g.Rooted :=
  ⟨hg.entry_lt, fun hpred ↦ lt_size_of_mem_succs (hg.mem_preds_iff.mp hpred),
    fun _ _ ↦ hg.mem_preds_iff⟩

@[simp] theorem size_toDigraph (flow : FlowGraph) : flow.toDigraph.size = flow.blockCount :=
  Array.size_map

@[simp] theorem succs_toDigraph (flow : FlowGraph) (v : Nat) :
    flow.toDigraph.succs v = flow.succs v := by
  simp only [succs, FlowGraph.toDigraph, Array.getElem?_map, FlowGraph.succs, FlowGraph.block?]
  cases flow.blocks[v]? <;> rfl

@[simp] theorem preds_toDigraph (flow : FlowGraph) (v : Nat) :
    flow.toDigraph.preds v = flow.preds v := by
  simp only [preds, FlowGraph.toDigraph, Array.getElem?_map, FlowGraph.preds, FlowGraph.block?]
  cases flow.blocks[v]? <;> rfl

theorem linked_toDigraph {flow : FlowGraph} (hflow : flow.WellFormed)
    (hblocks : flow.isEmpty = false) : flow.toDigraph.Linked := by
  refine ⟨?_, ?_⟩
  · rw [size_toDigraph]
    exact FlowGraph.isEmpty_eq_false_iff.mp hblocks
  · intro u v
    rw [succs_toDigraph, preds_toDigraph]
    exact hflow.mem_preds_iff

theorem rooted_toDigraph {flow : FlowGraph} (hflow : flow.WellFormed)
    (hblocks : flow.isEmpty = false) : flow.toDigraph.Rooted :=
  (linked_toDigraph hflow hblocks).rooted

theorem rooted_ofEdges {n entry : Nat} (hentry : entry < n) (edges : List (Nat × Nat)) :
    (ofEdges n entry edges).Rooted := by
  have hsize : (ofEdges n entry edges).size = n := by simp [ofEdges, size]
  refine ⟨by rw [hsize]; exact hentry, fun {u v} hpred ↦ ?_, fun {u v} hu hv ↦ ?_⟩
  · by_cases hv : v < n
    · have hfilter : u ∈ (sourcesOf edges v).filter (· < n) := by
        simpa [preds, ofEdges, hv] using hpred
      rw [hsize]
      exact of_decide_eq_true (List.mem_filter.mp hfilter).2
    · simp [preds, ofEdges, hv] at hpred
  · rw [hsize] at hu hv
    simp [preds, succs, ofEdges, hu, hv, sourcesOf, targetsOf]

/-! ### Refinement -/

theorem mem_refined : a ∈ g.refined sets v ↔
    a = v ∨ a < g.size ∧ ∀ p ∈ g.preds v, p < sets.size → a ∈ sets.getD p ∅ := by
  rw [refined, BitSet.mem_insert, ← BitSet.mem_full]
  refine or_congr_right ?_
  generalize BitSet.full g.size = common
  induction g.preds v generalizing common with
  | nil => simp
  | cons p rest ih =>
    rw [List.foldl_cons, ih, List.forall_mem_cons, ← and_assoc]
    refine and_congr_left' ?_
    by_cases hp : p < sets.size <;> simp [hp]

theorem mem_getD_setIfInBounds {s : BitSet} : a ∈ (sets.setIfInBounds v s).getD u ∅ ↔
    (u = v ∧ v < sets.size ∧ a ∈ s) ∨ (¬(u = v ∧ v < sets.size) ∧ a ∈ sets.getD u ∅) := by
  simp only [Array.getD_eq_getD_getElem?, Array.getElem?_setIfInBounds]
  by_cases huv : u = v
  · subst huv
    by_cases hu : u < sets.size <;> simp [hu]
  · simp [huv, Ne.symm huv]

theorem mem_getD_setIfInBounds_of {s : BitSet} (hv : v < sets.size) (hself : u = v → a ∈ s)
    (hother : u ≠ v → a ∈ sets.getD u ∅) : a ∈ (sets.setIfInBounds v s).getD u ∅ := by
  rw [mem_getD_setIfInBounds]
  by_cases huv : u = v
  · exact Or.inl ⟨huv, hv, hself huv⟩
  · exact Or.inr ⟨fun hboth ↦ huv hboth.1, hother huv⟩

/-- A refined set does not grow when the candidates shrink. -/
theorem refined_mono {sets' : Candidates} (hsize : sets'.size = sets.size)
    (h : ∀ u a, a ∈ sets'.getD u ∅ → a ∈ sets.getD u ∅) (ha : a ∈ g.refined sets' v) :
    a ∈ g.refined sets v := by
  rw [mem_refined] at ha ⊢
  rw [hsize] at ha
  exact ha.imp_right fun ⟨hlt, hall⟩ ↦ ⟨hlt, fun p hp hplt ↦ h p a (hall p hp hplt)⟩

/-- What all rounds of refinement keep, whatever the neighbour lists say: every node has itself, and
refining a node other than the entry would not let its set grow. -/
structure Shrinking (g : Digraph) (sets : Candidates) : Prop where
  size_eq : sets.size = g.size
  lt_size : ∀ {v a : Nat}, a ∈ sets.getD v ∅ → a < g.size
  self_mem : ∀ {v : Nat}, v < g.size → v ∈ sets.getD v ∅
  descending : ∀ {v a : Nat}, v < g.size → v ≠ g.entry → a ∈ g.refined sets v →
    a ∈ sets.getD v ∅

/-- What they also keep in a rooted graph: the entry has itself alone, and dominators stay
members. -/
structure Refining (g : Digraph) (sets : Candidates) : Prop extends Shrinking g sets where
  entry : ∀ {a : Nat}, a ∈ sets.getD g.entry ∅ ↔ a = g.entry
  complete : ∀ {v a : Nat}, v < g.size → a < g.size → g.Dominates a v → a ∈ sets.getD v ∅

theorem mem_initialCandidates : a ∈ g.initialCandidates.getD v ∅ ↔
    v < g.size ∧ if v = g.entry then a = v else a < g.size := by
  rw [Array.getD_eq_getD_getElem?]
  by_cases hv : v < g.size
  · have hget : g.initialCandidates[v]? =
        some (if v = g.entry then BitSet.ofList g.size [v] else BitSet.full g.size) := by
      simp [initialCandidates, hv]
    rw [hget, Option.getD_some, and_iff_right hv]
    split_ifs <;> simp
  · have hget : g.initialCandidates[v]? = none := by simp [initialCandidates, Nat.not_lt.mp hv]
    simp [hget, hv]

theorem shrinking_initialCandidates (g : Digraph) : g.Shrinking g.initialCandidates := by
  refine ⟨by simp [initialCandidates], fun {v a} ha ↦ ?_, fun {v} hv ↦ ?_, fun {v a} hv hne ha ↦ ?_⟩
  · obtain ⟨hv, ha⟩ := mem_initialCandidates.mp ha
    split_ifs at ha
    · rwa [ha]
    · exact ha
  · rw [mem_initialCandidates]
    refine ⟨hv, ?_⟩
    split_ifs
    · rfl
    · exact hv
  · rw [mem_initialCandidates, if_neg hne]
    refine ⟨hv, ?_⟩
    rcases mem_refined.mp ha with rfl | ha
    · exact hv
    · exact ha.1

theorem refining_initialCandidates (hg : g.Rooted) : g.Refining g.initialCandidates := by
  refine ⟨g.shrinking_initialCandidates, fun {a} ↦ ?_, fun {v a} hv hlt ha ↦ ?_⟩
  · rw [mem_initialCandidates, if_pos rfl, and_iff_right hg.entry_lt]
  · rw [mem_initialCandidates]
    refine ⟨hv, ?_⟩
    split_ifs with hentry
    · subst hentry
      exact List.mem_singleton.mp (ha [g.entry] .refl)
    · exact hlt

/-- The comparison that decides about an update compares members. -/
theorem refined_beq_iff (hlt : v < sets.size) :
    (some (g.refined sets v) == sets[v]?) = true ↔
      ∀ a, a ∈ g.refined sets v ↔ a ∈ sets.getD v ∅ := by
  rw [Array.getD_eq_getD_getElem?, Array.getElem?_eq_getElem hlt, Option.some_beq_some,
    Option.getD_some, BitSet.beq_iff_mem]

/-- Refining a node leaves the state as it is, or replaces the node's set by a different one. -/
theorem refineNode_cases (g : Digraph) (state : Candidates × Bool) (v : Nat) :
    (g.refineNode state v = state ∧
        (v ≠ g.entry → some (g.refined state.1 v) == state.1[v]?)) ∨
      (v ≠ g.entry ∧ ¬some (g.refined state.1 v) == state.1[v]? ∧
        g.refineNode state v = (state.1.setIfInBounds v (g.refined state.1 v), true)) := by
  simp only [refineNode]
  split_ifs with hentry hsame
  · exact Or.inl ⟨rfl, fun hne ↦ absurd hentry hne⟩
  · exact Or.inl ⟨rfl, fun _ ↦ hsame⟩
  · exact Or.inr ⟨hentry, hsame, rfl⟩

theorem Shrinking.mem_set (h : g.Shrinking sets) (hv : v < g.size) (hne : v ≠ g.entry)
    (ha : a ∈ (sets.setIfInBounds v (g.refined sets v)).getD u ∅) : a ∈ sets.getD u ∅ := by
  rcases mem_getD_setIfInBounds.mp ha with ⟨rfl, -, ha⟩ | ⟨-, ha⟩
  · exact h.descending hv hne ha
  · exact ha

theorem Shrinking.set (h : g.Shrinking sets) (hv : v < g.size) (hne : v ≠ g.entry) :
    g.Shrinking (sets.setIfInBounds v (g.refined sets v)) := by
  have hsize : (sets.setIfInBounds v (g.refined sets v)).size = sets.size :=
    Array.size_setIfInBounds
  have hlt : v < sets.size := h.size_eq ▸ hv
  refine ⟨hsize.trans h.size_eq, fun ha ↦ h.lt_size (h.mem_set hv hne ha), fun {u} hu ↦ ?_,
    fun {u a} hu hune ha ↦ ?_⟩
  · exact mem_getD_setIfInBounds_of hlt (fun huv ↦ mem_refined.mpr (Or.inl huv)) fun _ ↦
      h.self_mem hu
  · have hrefined := refined_mono hsize (fun u a ↦ h.mem_set hv hne) ha
    exact mem_getD_setIfInBounds_of hlt (fun huv ↦ huv ▸ hrefined) fun _ ↦
      h.descending hu hune hrefined

theorem Refining.set (hg : g.Rooted) (h : g.Refining sets) (hv : v < g.size) (hne : v ≠ g.entry) :
    g.Refining (sets.setIfInBounds v (g.refined sets v)) := by
  have hlt : v < sets.size := h.size_eq ▸ hv
  refine ⟨h.toShrinking.set hv hne, fun {a} ↦ ?_, fun {u a} hu ha hdom ↦ ?_⟩
  · rw [mem_getD_setIfInBounds, h.entry]
    simp [Ne.symm hne]
  · refine mem_getD_setIfInBounds_of hlt (fun huv ↦ mem_refined.mpr ?_) fun _ ↦
      h.complete hu ha hdom
    subst huv
    by_cases hau : a = u
    · exact Or.inl hau
    · refine Or.inr ⟨ha, fun p hp _ ↦ ?_⟩
      have hplt := hg.lt_of_mem_preds hp
      exact h.complete hplt ha (hdom.pred ((hg.mem_preds_iff hplt hu).mp hp) hau)

section Preserves

variable {P : Candidates → Prop} (hset : ∀ {sets v}, v < g.size → v ≠ g.entry → P sets →
  P (sets.setIfInBounds v (g.refined sets v)))

include hset

theorem refineNode_preserves (hv : v < g.size) {state : Candidates × Bool} (h : P state.1) :
    P (g.refineNode state v).1 := by
  rcases refineNode_cases g state v with ⟨hsame, -⟩ | ⟨hne, -, hnext⟩
  · rwa [hsame]
  · rw [hnext]
    exact hset hv hne h

/-- A part of a round keeps what refining one node keeps. -/
theorem foldl_refineNode_preserves {nodes : List Nat} (hnodes : ∀ v ∈ nodes, v < g.size)
    (state : Candidates × Bool) (h : P state.1) : P (nodes.foldl g.refineNode state).1 :=
  List.foldlRecOn (motive := fun s : Candidates × Bool ↦ P s.1) nodes g.refineNode h
    fun _ hs v hv ↦ refineNode_preserves hset (hnodes v hv) hs

theorem refineRound_preserves (h : P sets) : P (g.refineRound sets).1 :=
  foldl_refineNode_preserves hset (fun _ hv ↦ List.mem_range.mp hv) (sets, false) h

end Preserves

theorem Shrinking.refineRound (h : g.Shrinking sets) : g.Shrinking (g.refineRound sets).1 :=
  refineRound_preserves (fun hv hne hs ↦ hs.set hv hne) h

/-! ### The rounds come to rest -/

/-- All members of all candidate sets. -/
def members (g : Digraph) (sets : Candidates) : Finset (Nat × Nat) :=
  (Finset.range g.size ×ˢ Finset.range g.size).filter fun p ↦ (sets.getD p.1 ∅).contains p.2

theorem card_members_le (g : Digraph) (sets : Candidates) :
    (g.members sets).card ≤ g.size * g.size := by
  refine (Finset.card_filter_le _ _).trans ?_
  rw [Finset.card_product, Finset.card_range]

theorem mem_members {p : Nat × Nat} :
    p ∈ g.members sets ↔ p.1 < g.size ∧ p.2 < g.size ∧ p.2 ∈ sets.getD p.1 ∅ := by
  simp [members, and_assoc, BitSet.mem_iff]

/-- A set that changes loses a member. -/
theorem Shrinking.card_members_set (h : g.Shrinking sets) (hv : v < g.size) (hne : v ≠ g.entry)
    (hchanged : ¬some (g.refined sets v) == sets[v]?) :
    (g.members (sets.setIfInBounds v (g.refined sets v))).card < (g.members sets).card := by
  have hlt : v < sets.size := h.size_eq ▸ hv
  have hlost : ∃ a, a ∈ sets.getD v ∅ ∧ a ∉ g.refined sets v := by
    by_contra hkept
    refine hchanged ((refined_beq_iff hlt).mpr fun a ↦ ⟨h.descending hv hne, fun ha ↦ ?_⟩)
    by_contra hnot
    exact hkept ⟨a, ha, hnot⟩
  obtain ⟨a, ha, hnot⟩ := hlost
  refine Finset.card_lt_card ⟨fun p hp ↦ ?_, fun hsubset ↦ ?_⟩
  · obtain ⟨hp1, hp2, hmem⟩ := mem_members.mp hp
    exact mem_members.mpr ⟨hp1, hp2, h.mem_set hv hne hmem⟩
  · have hmem := (mem_members.mp (hsubset (mem_members.mpr
      (show (v, a).1 < g.size ∧ (v, a).2 < g.size ∧ _ from ⟨hv, h.lt_size ha, ha⟩)))).2.2
    rcases mem_getD_setIfInBounds.mp hmem with ⟨-, -, hmem⟩ | ⟨hother, -⟩
    · exact hnot hmem
    · exact hother ⟨rfl, hlt⟩

/-- A part of a round that changes anything loses a member. -/
theorem card_members_foldl_refineNode {nodes : List Nat} (hnodes : ∀ v ∈ nodes, v < g.size)
    (state : Candidates × Bool) (h : g.Shrinking state.1) :
    (g.members (nodes.foldl g.refineNode state).1).card +
      (nodes.foldl g.refineNode state).2.toNat ≤ (g.members state.1).card + state.2.toNat := by
  induction nodes generalizing state with
  | nil => exact Nat.le_refl _
  | cons v rest ih =>
    have hrest : ∀ w ∈ rest, w < g.size := fun w hw ↦ hnodes w (List.mem_cons_of_mem v hw)
    have hv := hnodes v List.mem_cons_self
    rw [List.foldl_cons]
    rcases refineNode_cases g state v with ⟨hsame, -⟩ | ⟨hne, hchanged, hnext⟩
    · rw [hsame]
      exact ih hrest state h
    · rw [hnext]
      refine (ih hrest (_, true) (h.set hv hne)).trans ?_
      rw [Bool.toNat_true]
      exact (h.card_members_set hv hne hchanged).trans_le (Nat.le_add_right _ _)

theorem Shrinking.card_members_refineRound (h : g.Shrinking sets)
    (hchanged : (g.refineRound sets).2 = true) :
    (g.members (g.refineRound sets).1).card < (g.members sets).card := by
  have hnodes : ∀ v ∈ List.range g.size, v < g.size := fun v hv ↦ List.mem_range.mp hv
  have hcard := card_members_foldl_refineNode hnodes (sets, false) h
  change (g.members (g.refineRound sets).1).card + (g.refineRound sets).2.toNat ≤
    (g.members sets).card + 0 at hcard
  rwa [hchanged] at hcard

/-- A part of a round that changes nothing finds every node refined. -/
theorem refined_of_foldl_refineNode {nodes : List Nat} {state : Candidates × Bool}
    (hsame : (nodes.foldl g.refineNode state).2 = false) :
    nodes.foldl g.refineNode state = state ∧
      ∀ v ∈ nodes, v ≠ g.entry → some (g.refined state.1 v) == state.1[v]? := by
  induction nodes generalizing state with
  | nil => exact ⟨rfl, by simp⟩
  | cons v rest ih =>
    rw [List.foldl_cons] at hsame ⊢
    obtain ⟨hrest, hrefined⟩ := ih hsame
    rcases refineNode_cases g state v with ⟨hstay, hv⟩ | ⟨-, -, hnext⟩
    · rw [hstay] at hrest hrefined ⊢
      exact ⟨hrest, List.forall_mem_cons.mpr ⟨hv, hrefined⟩⟩
    · rw [hrest, hnext] at hsame
      cases hsame

/-- Rounds are made until one changes nothing: `n` of them, and `final` is what they leave. -/
inductive RefinesTo (g : Digraph) : Candidates → Nat → Candidates → Prop
  | rest {sets : Candidates} (h : (g.refineRound sets).2 = false) :
      RefinesTo g sets 1 (g.refineRound sets).1
  | again {sets final : Candidates} {n : Nat} (h : (g.refineRound sets).2 = true)
      (hrest : RefinesTo g (g.refineRound sets).1 n final) : RefinesTo g sets (n + 1) final

/-- A budget beyond the number of members is never used up. -/
theorem Shrinking.refinesTo_refineRounds (h : g.Shrinking sets) {budget : Nat}
    (hbudget : (g.members sets).card < budget) (rounds : Nat) :
    ∃ n, (g.refineRounds budget sets rounds).2 = rounds + n ∧
      g.RefinesTo sets n (g.refineRounds budget sets rounds).1 := by
  induction budget generalizing sets rounds with
  | zero => exact absurd hbudget (Nat.not_lt_zero _)
  | succ budget ih =>
    rw [refineRounds]
    cases hchanged : (g.refineRound sets).2 with
    | true =>
      have hcard := h.card_members_refineRound hchanged
      obtain ⟨n, hrounds, hrest⟩ := ih h.refineRound (by omega) (rounds + 1)
      simp only [hchanged, if_true]
      exact ⟨n + 1, by omega, .again hchanged hrest⟩
    | false =>
      simp only [hchanged, Bool.false_eq_true, if_false]
      exact ⟨1, rfl, .rest hchanged⟩

theorem RefinesTo.shrinking {final : Candidates} {n : Nat} (hrun : g.RefinesTo sets n final)
    (h : g.Shrinking sets) : g.Shrinking final := by
  induction hrun with
  | rest _ => exact h.refineRound
  | again _ _ ih => exact ih h.refineRound

/-- Refining sets at rest. -/
structure Settled (g : Digraph) (sets : Candidates) : Prop extends Refining g sets where
  rest : ∀ {v a : Nat}, v < g.size → v ≠ g.entry → a ∈ sets.getD v ∅ → a ∈ g.refined sets v

theorem RefinesTo.settled (hg : g.Rooted) {final : Candidates} {n : Nat}
    (hrun : g.RefinesTo sets n final) (h : g.Refining sets) : g.Settled final := by
  induction hrun with
  | again _ _ ih => exact ih (refineRound_preserves (fun hv hne hs ↦ hs.set hg hv hne) h)
  | @rest sets hchanged =>
    obtain ⟨hsame, hrefined⟩ := refined_of_foldl_refineNode hchanged
    rw [show (g.refineRound sets).1 = sets from congrArg Prod.fst hsame]
    refine { h with rest := fun {v a} hv hne ha ↦ ?_ }
    have hlt : v < sets.size := h.size_eq ▸ hv
    exact ((refined_beq_iff hlt).mp (hrefined v (List.mem_range.mpr hv) hne) a).mpr ha

/-! ### Walks -/

/-- A member of a node's set at rest lies on every walk to the node. -/
theorem Settled.dominates (hg : g.Rooted) (h : g.Settled sets) (hv : v < g.size)
    (ha : a ∈ sets.getD v ∅) : g.Dominates a v := by
  intro nodes hwalk
  induction hwalk with
  | refl => exact List.mem_singleton.mpr (h.entry.mp ha)
  | @concat v w nodes hwalk hw ih =>
    by_cases hentry : w = g.entry
    · rw [hentry, h.entry] at ha
      exact List.mem_append_left _ (ha ▸ hwalk.source_mem)
    · rcases mem_refined.mp (h.rest hv hentry ha) with rfl | ⟨-, hpreds⟩
      · exact List.mem_append_right _ (List.mem_singleton_self a)
      · have hlt := lt_size_of_mem_succs hw
        refine List.mem_append_left _ (ih hlt (hpreds v ?_ (h.size_eq ▸ hlt)))
        exact (hg.mem_preds_iff hlt hv).mpr hw

theorem Settled.mem_iff (hg : g.Rooted) (h : g.Settled sets) (hv : v < g.size)
    (hreached : ∃ nodes, g.Walk g.entry nodes v) : a ∈ sets.getD v ∅ ↔ g.Dominates a v := by
  refine ⟨h.dominates hg hv, fun ha ↦ ?_⟩
  obtain ⟨nodes, hwalk⟩ := hreached
  exact h.complete hv (hwalk.lt_size hv a (ha nodes hwalk)) ha

end Digraph

namespace Dominators

open FlowFacts.Digraph

variable {g : Digraph} {a b : Nat}

/-- The stored sets are those of rounds without a budget. -/
theorem refinesTo_sets (hsize : g.size ≠ 0) :
    g.RefinesTo g.initialCandidates (ofDigraph g).rounds (ofDigraph g).sets := by
  have hbudget : (g.members g.initialCandidates).card < g.roundBudget :=
    Nat.lt_succ_of_le (card_members_le g _)
  obtain ⟨n, hrounds, hrun⟩ := g.shrinking_initialCandidates.refinesTo_refineRounds hbudget 0
  rw [← hrounds.trans (Nat.zero_add n)] at hrun
  rw [ofDigraph, if_neg hsize]
  exact hrun

/-- Whatever the neighbour lists say, dominators are nodes. -/
theorem lt_of_dominates (h : (ofDigraph g).dominates a b = true) : a < g.size := by
  rw [dominates] at h
  split at h
  · cases h
  · next set hset =>
    have hb := (Array.getElem?_eq_some_iff.mp hset).1
    have hsize : g.size ≠ 0 := fun hzero ↦ by simp [ofDigraph, hzero] at hb
    have hsets := (refinesTo_sets hsize).shrinking g.shrinking_initialCandidates
    rw [Bool.or_eq_true, Bool.and_eq_true, beq_iff_eq] at h
    rcases h with rfl | ⟨-, ha⟩
    · exact hsets.size_eq ▸ hb
    · refine hsets.lt_size (v := b) ?_
      rw [Array.getD_eq_getD_getElem?, hset]
      exact ha

theorem settled_sets (hg : g.Rooted) : g.Settled (ofDigraph g).sets :=
  (refinesTo_sets (Nat.ne_of_gt (Nat.zero_lt_of_lt hg.entry_lt))).settled hg
    (refining_initialCandidates hg)

theorem isReachable_iff (hg : g.Rooted) :
    (ofDigraph g).isReachable b = true ↔ ∃ nodes, g.Walk g.entry nodes b := by
  have hsize : g.size ≠ 0 := Nat.ne_of_gt (Nat.zero_lt_of_lt hg.entry_lt)
  rw [ofDigraph, if_neg hsize]
  exact mem_reachable_iff.trans (and_iff_right hg.entry_lt)

/-- The set of a node, as queries find it. -/
theorem exists_sets_getElem? (hg : g.Rooted) (hb : b < g.size) :
    ∃ set, (ofDigraph g).sets[b]? = some set ∧
      ∀ {a}, a ∈ set ↔ a ∈ (ofDigraph g).sets.getD b ∅ := by
  have hlt : b < (ofDigraph g).sets.size := (settled_sets hg).size_eq ▸ hb
  refine ⟨_, Array.getElem?_eq_getElem hlt, fun {a} ↦ ?_⟩
  rw [Array.getD_eq_getD_getElem?, Array.getElem?_eq_getElem hlt, Option.getD_some]

/-- Built graphs with blocks are rooted, and so are graphs of any edges from a known entry. In a
rooted graph the known nodes that the search reaches are those with a walk from the entry; such a
node is dominated by exactly what lies on all walks to it, listed in ascending order; another known
node is dominated by itself alone, and an unknown one by nothing. -/
theorem dominates_iff_walks :
    (∀ {draft : Draft} {flow : FlowGraph}, draft.build = .ok flow → flow.isEmpty = false →
      flow.toDigraph.Rooted) ∧
    (∀ {n entry : Nat} (edges : List (Nat × Nat)), entry < n → (ofEdges n entry edges).Rooted) ∧
    ∀ {g : Digraph}, g.Rooted →
      (∀ b < g.size, (ofDigraph g).isReachable b = true ↔ ∃ nodes, g.Walk g.entry nodes b) ∧
      (∀ b < g.size, (ofDigraph g).isReachable b = true →
        (∀ a, (ofDigraph g).dominates a b = true ↔
          ∀ nodes, g.Walk g.entry nodes b → a ∈ nodes) ∧
        ((ofDigraph g).dominatorsOf b).Pairwise (· < ·) ∧
        ∀ a, a ∈ (ofDigraph g).dominatorsOf b ↔ ∀ nodes, g.Walk g.entry nodes b → a ∈ nodes) ∧
      (∀ b < g.size, (ofDigraph g).isReachable b = false →
        (∀ a, (ofDigraph g).dominates a b = true ↔ a = b) ∧ (ofDigraph g).dominatorsOf b = [b]) ∧
      ∀ a b, g.size ≤ b → (ofDigraph g).dominates a b = false := by
  refine ⟨fun hbuild hblocks ↦ rooted_toDigraph (Draft.wellFormed_of_build hbuild) hblocks,
    fun edges hentry ↦ rooted_ofEdges hentry edges, fun {g} hg ↦ ⟨fun b _ ↦ isReachable_iff hg,
      fun b hb hreach ↦ ?_, fun b hb hreach ↦ ?_, fun a b hb ↦ ?_⟩⟩
  · obtain ⟨set, hset, hmem⟩ := exists_sets_getElem? hg hb
    have hdominates : ∀ {a}, a ∈ set ↔ g.Dominates a b := fun {a} ↦
      hmem.trans ((settled_sets hg).mem_iff hg hb ((isReachable_iff hg).mp hreach))
    have hself : b ∈ set := hdominates.mpr fun nodes hwalk ↦ hwalk.target_mem
    simp only [dominates, dominatorsOf, hset, hreach, Bool.true_and, if_true]
    refine ⟨fun a ↦ ?_, set.pairwise_toList, fun a ↦ BitSet.mem_toList.trans hdominates⟩
    rw [Bool.or_eq_true, beq_iff_eq]
    refine Iff.trans ⟨?_, Or.inr⟩ hdominates
    rintro (rfl | ha)
    · exact hself
    · exact ha
  · obtain ⟨set, hset, -⟩ := exists_sets_getElem? hg hb
    simp [dominates, dominatorsOf, hset, hreach]
  · have hsize := (settled_sets hg).size_eq
    have hnone : (ofDigraph g).sets[b]? = none := Array.getElem?_eq_none (hsize ▸ hb)
    simp [dominates, hnone]

/-- A loop with a repeated edge, an edge past the end and a node that nothing reaches. -/
def knotted : Digraph :=
  ofEdges 5 1 [(1, 0), (1, 2), (1, 2), (0, 3), (2, 3), (3, 1), (4, 3), (3, 9)]

theorem dominates_iff_walks_knotted :
    knotted.Rooted ∧ (ofDigraph knotted).isReachable 3 = true ∧
      (ofDigraph knotted).dominatorsOf 3 = [1, 3] ∧
      (∀ nodes, knotted.Walk 1 nodes 3 → 1 ∈ nodes) ∧
      (¬∀ nodes, knotted.Walk 1 nodes 3 → 2 ∈ nodes) ∧
      (ofDigraph knotted).isReachable 4 = false ∧ (ofDigraph knotted).dominatorsOf 4 = [4] ∧
      (ofDigraph knotted).dominates 9 9 = false ∧ Draft.selfLoop.toFlowGraph.toDigraph.Rooted := by
  obtain ⟨hbuilt, hedges, hall⟩ := dominates_iff_walks
  have hrooted : knotted.Rooted := hedges _ (by decide)
  obtain ⟨-, hreached, hunreached, hunknown⟩ := hall hrooted
  have h3 : (ofDigraph knotted).isReachable 3 = true := by decide +kernel
  have h4 : (ofDigraph knotted).isReachable 4 = false := by decide +kernel
  have hbuild : Draft.selfLoop.build = .ok Draft.selfLoop.toFlowGraph := rfl
  obtain ⟨hdominates, -, -⟩ := hreached 3 (by decide +kernel) h3
  refine ⟨hrooted, h3, by decide +kernel, (hdominates 1).mp (by decide +kernel), ?_, h4,
    (hunreached 4 (by decide +kernel) h4).2, hunknown 9 9 (by decide +kernel),
    hbuilt hbuild rfl⟩
  exact mt (hdominates 2).mpr (by decide +kernel)

end Dominators

end FlowFacts

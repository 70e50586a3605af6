import Mathlib.Data.Finset.Card
import Mathlib.Data.Finset.Range
import Mathlib.Logic.Function.Iterate
import FlowFacts.Proofs.PathDominance

/-!
How many rounds the refinement of dominators takes, whatever the neighbour lists and the numbers of
the nodes. Whether a node is a member of the sets does not depend on their other members. Once a
round takes it out of no set, no later round does; until then, each round takes it out of one more
set at least. It starts out of one set, that of the entry, and stays in its own, so the rounds that
change anything are fewer than the nodes.
-/

set_option autoImplicit false
set_option relaxedAutoImplicit false

namespace FlowFacts

namespace Digraph

variable {g : Digraph} {sets : Candidates} {a k u v : Nat}

/-- The candidates after `k` rounds. -/
def afterRounds (g : Digraph) (k : Nat) : Candidates :=
  (fun sets ↦ (g.refineRound sets).1)^[k] g.initialCandidates

theorem afterRounds_succ (g : Digraph) (k : Nat) :
    g.afterRounds (k + 1) = (g.refineRound (g.afterRounds k)).1 :=
  Function.iterate_succ_apply' _ k _

theorem Shrinking.refineNode {state : Candidates × Bool} (h : g.Shrinking state.1)
    (hv : v < g.size) : g.Shrinking (g.refineNode state v).1 :=
  refineNode_preserves (fun hv hne hs ↦ hs.set hv hne) hv h

/-- A part of a round puts nothing into a set. -/
theorem shrinking_foldl_refineNode {nodes : List Nat} (hnodes : ∀ v ∈ nodes, v < g.size)
    (state : Candidates × Bool) (h : g.Shrinking state.1) :
    g.Shrinking (nodes.foldl g.refineNode state).1 ∧
      ∀ u a, a ∈ (nodes.foldl g.refineNode state).1.getD u ∅ → a ∈ state.1.getD u ∅ := by
  refine foldl_refineNode_preserves
    (P := fun s ↦ g.Shrinking s ∧ ∀ u a, a ∈ s.getD u ∅ → a ∈ state.1.getD u ∅)
    (fun hv hne hs ↦ ⟨hs.1.set hv hne, fun u a ha ↦ ?_⟩) hnodes state ⟨h, fun _ _ ha ↦ ha⟩
  exact hs.2 u a (hs.1.mem_set hv hne ha)

theorem Shrinking.mem_of_mem_refineRound (h : g.Shrinking sets)
    (ha : a ∈ (g.refineRound sets).1.getD u ∅) : a ∈ sets.getD u ∅ :=
  (shrinking_foldl_refineNode (fun _ hv ↦ List.mem_range.mp hv) (sets, false) h).2 u a ha

theorem shrinking_afterRounds (g : Digraph) (k : Nat) : g.Shrinking (g.afterRounds k) := by
  induction k with
  | zero => exact g.shrinking_initialCandidates
  | succ k ih =>
    rw [afterRounds_succ]
    exact ih.refineRound

/-! ### One member at a time -/

/-- Refining takes the node out of no set. -/
def AtRest (g : Digraph) (sets : Candidates) (a : Nat) : Prop :=
  ∀ v < g.size, v ≠ g.entry → a ∈ sets.getD v ∅ → a ∈ g.refined sets v

/-- Refining looks at one node apart from all others. -/
theorem AtRest.congr {sets' : Candidates} (hsize : sets'.size = sets.size)
    (hsame : ∀ u, a ∈ sets'.getD u ∅ ↔ a ∈ sets.getD u ∅) (h : g.AtRest sets a) :
    g.AtRest sets' a := by
  intro v hv hne ha
  have hrefined := h v hv hne ((hsame v).mp ha)
  rw [mem_refined] at hrefined ⊢
  rw [hsize]
  exact hrefined.imp_right fun ⟨hlt, hall⟩ ↦ ⟨hlt, fun p hp hplt ↦ (hsame p).mpr (hall p hp hplt)⟩

theorem AtRest.mem_set_iff (h : g.AtRest sets a) (hsets : g.Shrinking sets) (hv : v < g.size)
    (hne : v ≠ g.entry) :
    a ∈ (sets.setIfInBounds v (g.refined sets v)).getD u ∅ ↔ a ∈ sets.getD u ∅ := by
  refine ⟨hsets.mem_set hv hne, fun ha ↦ ?_⟩
  exact mem_getD_setIfInBounds_of (hsets.size_eq ▸ hv) (fun huv ↦ h v hv hne (huv ▸ ha)) fun _ ↦ ha

theorem AtRest.mem_refineRound_iff (h : g.AtRest sets a) (hsets : g.Shrinking sets) :
    a ∈ (g.refineRound sets).1.getD u ∅ ↔ a ∈ sets.getD u ∅ := by
  have hround : g.Shrinking (g.refineRound sets).1 ∧
      ∀ u, a ∈ (g.refineRound sets).1.getD u ∅ ↔ a ∈ sets.getD u ∅ := by
    refine refineRound_preserves (P := fun s ↦ g.Shrinking s ∧
      ∀ u, a ∈ s.getD u ∅ ↔ a ∈ sets.getD u ∅) (fun {s v} hv hne hs ↦ ?_) ⟨hsets, fun _ ↦ Iff.rfl⟩
    have hrest : g.AtRest s a := h.congr (hs.1.size_eq.trans hsets.size_eq.symm) hs.2
    exact ⟨hs.1.set hv hne, fun u ↦ (hrest.mem_set_iff hs.1 hv hne).trans (hs.2 u)⟩
  exact hround.2 u

theorem AtRest.refineRound (h : g.AtRest sets a) (hsets : g.Shrinking sets) :
    g.AtRest (g.refineRound sets).1 a :=
  h.congr (hsets.refineRound.size_eq.trans hsets.size_eq.symm) fun _ ↦ h.mem_refineRound_iff hsets

/-- Right after its turn, a node has no member that refining would take out. -/
theorem Shrinking.mem_refined_of_mem_refineNode {state : Candidates × Bool}
    (h : g.Shrinking state.1) (hv : v < g.size) (hne : v ≠ g.entry)
    (ha : a ∈ (g.refineNode state v).1.getD v ∅) : a ∈ g.refined state.1 v := by
  have hlt : v < state.1.size := h.size_eq ▸ hv
  rcases refineNode_cases g state v with ⟨hsame, hrefined⟩ | ⟨-, -, hnext⟩
  · rw [hsame] at ha
    exact ((refined_beq_iff hlt).mp (hrefined hne) a).mpr ha
  · rw [hnext] at ha
    rcases mem_getD_setIfInBounds.mp ha with ⟨-, -, ha⟩ | ⟨hother, -⟩
    · exact ha
    · exact absurd ⟨rfl, hlt⟩ hother

/-- A round takes out whatever refining would have taken out at its start: by the node's turn the
sets are no larger. -/
theorem Shrinking.mem_refined_of_mem_refineRound (h : g.Shrinking sets) (hv : v < g.size)
    (hne : v ≠ g.entry) (ha : a ∈ (g.refineRound sets).1.getD v ∅) : a ∈ g.refined sets v := by
  obtain ⟨before, after, hnodes⟩ := List.append_of_mem (List.mem_range.mpr hv)
  have hlt : ∀ w ∈ before ++ v :: after, w < g.size := fun w hw ↦
    List.mem_range.mp (hnodes ▸ hw)
  obtain ⟨hturn, hsmaller⟩ := shrinking_foldl_refineNode
    (fun w hw ↦ hlt w (List.mem_append_left _ hw)) (sets, false) h
  rw [Digraph.refineRound, hnodes, List.foldl_append, List.foldl_cons] at ha
  have hmem := (shrinking_foldl_refineNode
    (fun w hw ↦ hlt w (List.mem_append_right _ (List.mem_cons_of_mem v hw))) _
    (hturn.refineNode hv)).2 v a ha
  exact refined_mono (hturn.size_eq.trans h.size_eq.symm) hsmaller
    (hturn.mem_refined_of_mem_refineNode hv hne hmem)

/-- A round takes a node that is not at rest out of a set of another node. -/
theorem Shrinking.exists_lost (h : g.Shrinking sets) (hrest : ¬g.AtRest sets a) :
    ∃ v < g.size, v ≠ a ∧ a ∈ sets.getD v ∅ ∧ a ∉ (g.refineRound sets).1.getD v ∅ := by
  simp only [AtRest, not_forall] at hrest
  obtain ⟨v, hv, hne, ha, hnot⟩ := hrest
  refine ⟨v, hv, ?_, ha, fun hkept ↦ hnot (h.mem_refined_of_mem_refineRound hv hne hkept)⟩
  rintro rfl
  exact hnot (mem_refined.mpr (Or.inl rfl))

/-- A round that changes anything finds a node that is not at rest. -/
theorem Shrinking.exists_not_atRest (h : g.Shrinking sets)
    (hchanged : (g.refineRound sets).2 = true) : ∃ a, ¬g.AtRest sets a := by
  by_contra hnone
  have hsame : g.members (g.refineRound sets).1 = g.members sets := by
    ext p
    have hrest : g.AtRest sets p.2 := by
      by_contra hnot
      exact hnone ⟨p.2, hnot⟩
    rw [mem_members, mem_members, hrest.mem_refineRound_iff h]
  exact absurd (h.card_members_refineRound hchanged) (by rw [hsame]; exact Nat.lt_irrefl _)

/-! ### Counting rounds -/

/-- The nodes whose sets the node is out of. -/
def undominated (g : Digraph) (sets : Candidates) (a : Nat) : Finset Nat :=
  (Finset.range g.size).filter fun v ↦ a ∉ sets.getD v ∅

theorem mem_undominated : v ∈ g.undominated sets a ↔ v < g.size ∧ a ∉ sets.getD v ∅ := by
  rw [undominated, Finset.mem_filter, Finset.mem_range]

theorem Shrinking.card_undominated_lt (h : g.Shrinking sets) (hrest : ¬g.AtRest sets a) :
    (g.undominated sets a).card < (g.undominated (g.refineRound sets).1 a).card := by
  obtain ⟨v, hv, -, ha, hlost⟩ := h.exists_lost hrest
  refine Finset.card_lt_card ⟨fun u hu ↦ ?_, fun hsubset ↦ ?_⟩
  · obtain ⟨hlt, hnot⟩ := mem_undominated.mp hu
    exact mem_undominated.mpr ⟨hlt, fun hmem ↦ hnot (h.mem_of_mem_refineRound hmem)⟩
  · exact (mem_undominated.mp (hsubset (mem_undominated.mpr ⟨hv, hlost⟩))).2 ha

/-- A node that is not at rest is still in its own set and in another. -/
theorem Shrinking.card_undominated_add_two_le (h : g.Shrinking sets) (hrest : ¬g.AtRest sets a) :
    (g.undominated sets a).card + 2 ≤ g.size := by
  obtain ⟨v, hv, hne, ha, -⟩ := h.exists_lost hrest
  have hlt : a < g.size := h.lt_size ha
  have hpair : ({a, v} : Finset Nat).card = 2 := Finset.card_pair (Ne.symm hne)
  have hdisjoint : Disjoint (g.undominated sets a) {a, v} := by
    rw [Finset.disjoint_right]
    intro u hu hmem
    have hout := (mem_undominated.mp hmem).2
    rcases Finset.mem_insert.mp hu with rfl | hu
    · exact hout (h.self_mem hlt)
    · exact hout (Finset.mem_singleton.mp hu ▸ ha)
  calc (g.undominated sets a).card + 2
      = (g.undominated sets a ∪ {a, v}).card := by
        rw [Finset.card_union_of_disjoint hdisjoint, hpair]
    _ ≤ (Finset.range g.size).card := by
        refine Finset.card_le_card (Finset.union_subset (Finset.filter_subset _ _) ?_)
        intro u hu
        rcases Finset.mem_insert.mp hu with rfl | hu
        · exact Finset.mem_range.mpr hlt
        · exact Finset.mem_range.mpr (Finset.mem_singleton.mp hu ▸ hv)
    _ = g.size := Finset.card_range g.size

/-- A node that is in all sets is at rest. -/
theorem Shrinking.atRest_of_undominated_eq_empty (h : g.Shrinking sets)
    (hempty : g.undominated sets a = ∅) : g.AtRest sets a := by
  intro v hv hne ha
  refine mem_refined.mpr (Or.inr ⟨h.lt_size ha, fun p hp hplt ↦ ?_⟩)
  by_contra hnot
  have hmem : p ∈ g.undominated sets a := mem_undominated.mpr ⟨h.size_eq ▸ hplt, hnot⟩
  rw [hempty] at hmem
  exact Finset.notMem_empty p hmem

/-- A node that is not at rest after `k` rounds was taken out of a set by each of them. -/
theorem lt_card_undominated (hrest : ¬g.AtRest (g.afterRounds k) a) :
    k < (g.undominated (g.afterRounds k) a).card := by
  induction k with
  | zero =>
    refine Finset.card_pos.mpr (Finset.nonempty_iff_ne_empty.mpr fun hempty ↦ hrest ?_)
    exact (g.shrinking_afterRounds 0).atRest_of_undominated_eq_empty hempty
  | succ k ih =>
    have hsets := g.shrinking_afterRounds k
    rw [afterRounds_succ] at hrest ⊢
    have hbefore : ¬g.AtRest (g.afterRounds k) a := fun h ↦ hrest (h.refineRound hsets)
    exact (Nat.succ_le_of_lt (ih hbefore)).trans_lt (hsets.card_undominated_lt hbefore)

/-- After `k` rounds, a round changes something only if the graph has more than `k + 2` nodes. -/
theorem lt_size_of_changed (hchanged : (g.refineRound (g.afterRounds k)).2 = true) :
    k + 2 < g.size := by
  have hsets := g.shrinking_afterRounds k
  obtain ⟨a, hrest⟩ := hsets.exists_not_atRest hchanged
  have hmany := lt_card_undominated hrest
  have hfew := hsets.card_undominated_add_two_le hrest
  omega

namespace RefinesTo

variable {n : Nat} {final : Candidates}

theorem pos (h : g.RefinesTo sets n final) : 1 ≤ n := by
  cases h with
  | rest _ => exact Nat.le_refl 1
  | again _ _ => exact Nat.le_add_left 1 _

theorem eq_afterRounds (h : g.RefinesTo (g.afterRounds k) n final) :
    final = g.afterRounds (k + n) := by
  generalize hsets : g.afterRounds k = sets at h
  induction h generalizing k with
  | rest _ => rw [← hsets, afterRounds_succ]
  | @again sets final n _ _ ih =>
    subst hsets
    rw [ih (k := k + 1) (g.afterRounds_succ k), Nat.add_assoc, Nat.add_comm 1 n]

/-- From the candidates after `k` rounds, one more round is enough or all rounds together are fewer
than the nodes. -/
theorem eq_one_or_lt_size (h : g.RefinesTo (g.afterRounds k) n final) : n = 1 ∨ k + n < g.size := by
  generalize hsets : g.afterRounds k = sets at h
  induction h generalizing k with
  | rest _ => exact Or.inl rfl
  | @again sets final n hchanged _ ih =>
    subst hsets
    have hlt := lt_size_of_changed hchanged
    have hrest := ih (k := k + 1) (g.afterRounds_succ k)
    omega

end RefinesTo

end Digraph

namespace Dominators

open FlowFacts.Digraph

/-- In every graph with nodes, rounds take members out of the candidate sets and put none in, and
made without a budget they end with the stored sets. There is at least one, and there are at most as
many as nodes, fewer if there is more than one node. -/
theorem rounds_end_within_size {g : Digraph} (hsize : 0 < g.size) :
    (∀ k v a, a ∈ (g.afterRounds (k + 1)).getD v ∅ → a ∈ (g.afterRounds k).getD v ∅) ∧
      g.RefinesTo g.initialCandidates (ofDigraph g).rounds (ofDigraph g).sets ∧
      (ofDigraph g).sets = g.afterRounds (ofDigraph g).rounds ∧
      1 ≤ (ofDigraph g).rounds ∧ (ofDigraph g).rounds ≤ g.size ∧
      (1 < g.size → (ofDigraph g).rounds < g.size) := by
  have hrun := refinesTo_sets (Nat.ne_of_gt hsize)
  have hsets : (ofDigraph g).sets = g.afterRounds (0 + (ofDigraph g).rounds) :=
    RefinesTo.eq_afterRounds (k := 0) hrun
  have hbound : (ofDigraph g).rounds = 1 ∨ 0 + (ofDigraph g).rounds < g.size :=
    RefinesTo.eq_one_or_lt_size (k := 0) hrun
  rw [Nat.zero_add] at hsets hbound
  refine ⟨fun k v a ha ↦ ?_, hrun, hsets, hrun.pos, by omega, by omega⟩
  rw [afterRounds_succ] at ha
  exact (g.shrinking_afterRounds k).mem_of_mem_refineRound ha

/-- A chain that goes down the numbers, so that each round gets only one node further. -/
def descendingChain : Digraph :=
  ofEdges 5 0 [(0, 3), (3, 2), (2, 1), (1, 4)]

theorem rounds_end_within_size_descendingChain :
    0 < descendingChain.size ∧ (ofDigraph descendingChain).rounds = 4 ∧
      (ofDigraph descendingChain).rounds < descendingChain.size ∧
      descendingChain.RefinesTo descendingChain.initialCandidates 4
        (ofDigraph descendingChain).sets ∧
      ∀ v a, a ∈ (descendingChain.afterRounds 4).getD v ∅ →
        a ∈ (descendingChain.afterRounds 3).getD v ∅ := by
  have hfive : descendingChain.size = 5 := by with_unfolding_all rfl
  have hsize : 0 < descendingChain.size := by omega
  have hrounds : (ofDigraph descendingChain).rounds = 4 := by with_unfolding_all rfl
  obtain ⟨hshrink, hrun, -, -, -, hlt⟩ := rounds_end_within_size hsize
  exact ⟨hsize, hrounds, hlt (by omega), hrounds ▸ hrun, hshrink 3⟩

end Dominators

end FlowFacts

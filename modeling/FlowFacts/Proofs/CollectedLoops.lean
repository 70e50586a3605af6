import Mathlib.Data.List.Induction
import Mathlib.Data.List.Nodup
import Mathlib.Data.List.Sort
import FlowFacts.Proofs.DominanceOrder

/-!
How loops are collected from back edges. An edge goes to the loop of its header, wherever that
stands in the list, or to a new one at the end. So the list has one loop for each header, to which
the sources of its edges have been added in their order, and sorting leaves them by ascending
header.
-/

set_option autoImplicit false
set_option relaxedAutoImplicit false

namespace FlowFacts

/-! ### Sorting by insertion -/

section Sorting

variable {α β : Type} {le : α → α → Bool}

theorem sortBy_eq_insertionSort (le : α → α → Bool) (items : List α) :
    sortBy le items = items.insertionSort fun a b ↦ le a b = true := by
  have hinsert : ∀ (a : α) (rest : List α),
      insertBy le a rest = rest.orderedInsert (fun a b ↦ le a b = true) a := by
    intro a rest
    induction rest with
    | nil => rfl
    | cons b rest ih => rw [insertBy, List.orderedInsert_cons, ih]
  induction items with
  | nil => rfl
  | cons a rest ih =>
    rw [List.insertionSort_cons, ← ih, ← hinsert]
    rfl

theorem perm_sortBy (le : α → α → Bool) (items : List α) : (sortBy le items).Perm items := by
  rw [sortBy_eq_insertionSort]
  exact List.perm_insertionSort _ items

theorem mem_sortBy {items : List α} {a : α} : a ∈ sortBy le items ↔ a ∈ items :=
  (perm_sortBy le items).mem_iff

theorem pairwise_sortBy (htrans : ∀ a b c, le a b = true → le b c = true → le a c = true)
    (htotal : ∀ a b, le a b = true ∨ le b a = true) (items : List α) :
    (sortBy le items).Pairwise fun a b ↦ le a b = true := by
  rw [sortBy_eq_insertionSort]
  have : Std.Total fun a b ↦ le a b = true := ⟨htotal⟩
  have : IsTrans α fun a b ↦ le a b = true := ⟨htrans⟩
  exact List.pairwise_insertionSort _ items

/-- Sorting looks at nothing but the keys. -/
theorem sortBy_map {f : β → α} (le' : β → β → Bool) (h : ∀ a b, le (f a) (f b) = le' a b)
    (items : List β) : sortBy le (items.map f) = (sortBy le' items).map f := by
  have hinsert : ∀ (a : β) (rest : List β),
      insertBy le (f a) (rest.map f) = (insertBy le' a rest).map f := by
    intro a rest
    induction rest with
    | nil => rfl
    | cons b rest ih =>
      rw [List.map_cons, insertBy, insertBy, ih, h]
      split_ifs <;> rfl
  induction items with
  | nil => rfl
  | cons a rest ih =>
    rw [List.map_cons]
    exact (congrArg (insertBy le (f a)) ih).trans (hinsert a _)

end Sorting

namespace Digraph

variable {g : Digraph} {d : Dominators} {edges : List (Nat × Nat)}

/-! ### One loop for each header -/

/-- The edge goes to the first loop with its header. -/
theorem addBackEdge_cons (l : Loop) (rest : List Loop) (edge : Nat × Nat) :
    g.addBackEdge d (l :: rest) edge =
      if l.header = edge.2 then g.addLatch d l edge.1 :: rest
      else l :: g.addBackEdge d rest edge := by
  rw [addBackEdge, addBackEdge, List.findIdx?_cons]
  by_cases hheader : l.header = edge.2
  · simp [hheader]
  · rw [if_neg (by simpa using hheader), if_neg hheader]
    cases rest.findIdx? (·.header == edge.2) with
    | none => rfl
    | some k => rfl

theorem addBackEdge_map {headers : List Nat} (hnodup : headers.Nodup) {loop : Nat → Loop}
    (hheader : ∀ h, (loop h).header = h) {edge : Nat × Nat}
    (hnew : edge.2 ∉ headers → loop edge.2 = .ofHeader g.size edge.2) :
    ∃ headers' : List Nat, headers'.Nodup ∧ (∀ h, h ∈ headers' ↔ h = edge.2 ∨ h ∈ headers) ∧
      g.addBackEdge d (headers.map loop) edge =
        headers'.map fun h ↦ if h = edge.2 then g.addLatch d (loop h) edge.1 else loop h := by
  induction headers with
  | nil =>
    refine ⟨[edge.2], List.nodup_singleton _, fun h ↦ by simp, ?_⟩
    rw [List.map_singleton, if_pos rfl, hnew List.not_mem_nil]
    rfl
  | cons first rest ih =>
    obtain ⟨hfirst, hrest⟩ := List.nodup_cons.mp hnodup
    rw [List.map_cons, addBackEdge_cons, hheader]
    split_ifs with heq
    · refine ⟨first :: rest, hnodup, fun h ↦ by simp [heq], ?_⟩
      rw [List.map_cons, if_pos heq]
      refine congrArg _ (List.map_congr_left fun h hh ↦ ?_)
      have hne : h ≠ edge.2 := fun hedge ↦ hfirst (heq.trans hedge.symm ▸ hh)
      rw [if_neg hne]
    · obtain ⟨headers', hnodup', hmem, hadded⟩ := ih hrest fun hnotMem ↦
        hnew fun h ↦ (List.mem_cons.mp h).elim (fun h ↦ heq h.symm) hnotMem
      refine ⟨first :: headers', List.nodup_cons.mpr ⟨fun hmem' ↦ ?_, hnodup'⟩, fun h ↦ ?_, ?_⟩
      · exact ((hmem first).mp hmem').elim heq hfirst
      · rw [List.mem_cons, List.mem_cons, hmem, or_left_comm]
      · rw [hadded, List.map_cons, if_neg heq]

/-- The loop of a header, from all back edges in their order. -/
def loopOf (g : Digraph) (d : Dominators) (edges : List (Nat × Nat)) (header : Nat) : Loop :=
  (sourcesOf edges header).foldl (g.addLatch d) (.ofHeader g.size header)

theorem header_loopOf (g : Digraph) (d : Dominators) (edges : List (Nat × Nat)) (header : Nat) :
    (g.loopOf d edges header).header = header :=
  List.foldlRecOn (motive := fun l : Loop ↦ l.header = header) (sourcesOf edges header) _ rfl
    fun _ hl _ _ ↦ hl

theorem loopOf_concat (edge : Nat × Nat) (header : Nat) :
    g.loopOf d (edges ++ [edge]) header =
      if header = edge.2 then g.addLatch d (g.loopOf d edges header) edge.1
      else g.loopOf d edges header := by
  rw [loopOf, sourcesOf, List.filter_append, List.map_append, List.foldl_append]
  by_cases hheader : header = edge.2
  · simp [hheader, loopOf, sourcesOf]
  · simp [hheader, Ne.symm hheader, loopOf, sourcesOf]

theorem exists_foldl_addBackEdge (g : Digraph) (d : Dominators) (edges : List (Nat × Nat)) :
    ∃ headers : List Nat, headers.Nodup ∧ (∀ h, h ∈ headers ↔ h ∈ edges.map Prod.snd) ∧
      edges.foldl (g.addBackEdge d) [] = headers.map (g.loopOf d edges) := by
  induction edges using List.reverseRecOn with
  | nil => exact ⟨[], List.nodup_nil, fun h ↦ Iff.rfl, rfl⟩
  | append_singleton edges edge ih =>
    obtain ⟨headers, hnodup, hmem, heq⟩ := ih
    have hnew : edge.2 ∉ headers → g.loopOf d edges edge.2 = .ofHeader g.size edge.2 := by
      intro hnotMem
      have hnone : sourcesOf edges edge.2 = [] := by
        refine List.map_eq_nil_iff.mpr (List.filter_eq_nil_iff.mpr fun e he hedge ↦ ?_)
        exact hnotMem ((hmem _).mpr (beq_iff_eq.mp hedge ▸ List.mem_map_of_mem he))
      rw [loopOf, hnone]
      rfl
    obtain ⟨headers', hnodup', hmem', hadded⟩ :=
      addBackEdge_map (d := d) hnodup (g.header_loopOf d edges) hnew
    refine ⟨headers', hnodup', fun h ↦ ?_, ?_⟩
    · rw [hmem', hmem, List.map_append, List.mem_append, or_comm]
      simp
    · rw [List.foldl_concat, heq, hadded]
      exact List.map_congr_left fun h _ ↦ (loopOf_concat edge h).symm

/-! ### By ascending header -/

/-- Sorted by header, the loops are those of the nodes that some back edge leads to. -/
theorem collectLoops_eq (hedges : ∀ e ∈ edges, e.2 < g.size) :
    g.collectLoops d edges = ((List.range g.size).filter fun v ↦ edges.any (·.2 == v)).map fun h ↦
      g.withBorder (g.loopOf d edges h) := by
  obtain ⟨headers, hnodup, hmem, hcollected⟩ := g.exists_foldl_addBackEdge d edges
  rw [collectLoops, hcollected, List.map_map,
    sortBy_map (fun h h' ↦ decide (h ≤ h')) fun h h' ↦ ?_]
  · refine congrArg _ ?_
    have hsorted : (sortBy (fun h h' ↦ decide (h ≤ h')) headers).Pairwise (· ≤ ·) := by
      refine (pairwise_sortBy (fun a b c hab hbc ↦ ?_) (fun a b ↦ ?_) headers).imp of_decide_eq_true
      · exact decide_eq_true ((of_decide_eq_true hab).trans (of_decide_eq_true hbc))
      · exact (Nat.le_total a b).imp decide_eq_true decide_eq_true
    refine List.Perm.eq_of_pairwise (fun _ _ _ _ ↦ Nat.le_antisymm) hsorted
      (List.pairwise_le_range.filter _) ((perm_sortBy _ headers).trans ?_)
    refine (List.perm_ext_iff_of_nodup hnodup (List.nodup_range.filter _)).mpr fun h ↦ ?_
    simp only [hmem, List.mem_map, List.mem_filter, List.mem_range, List.any_eq_true, beq_iff_eq]
    constructor
    · rintro ⟨e, he, rfl⟩
      exact ⟨hedges e he, e, he, rfl⟩
    · rintro ⟨-, e, he, heq⟩
      exact ⟨e, he, heq⟩
  · simp [withBorder, header_loopOf]

theorem backEdge_lt (g : Digraph) :
    ∀ e ∈ g.backEdges (Dominators.ofDigraph g), e.2 < g.size := by
  intro e he
  obtain ⟨s, -, he⟩ := List.mem_flatMap.mp he
  obtain ⟨h, hh, rfl⟩ := List.mem_map.mp he
  exact Dominators.lt_of_dominates (List.mem_filter.mp hh).2

end Digraph

namespace LoopNest

open FlowFacts.Digraph

/-- The loops of a graph, one for each node that a back edge leads to. -/
theorem loops_eq (g : Digraph) :
    (ofDigraph g).loops =
      ((List.range g.size).filter fun v ↦ (ofDigraph g).backEdges.any (·.2 == v)).map fun h ↦
        g.withBorder (g.loopOf (Dominators.ofDigraph g) (ofDigraph g).backEdges h) :=
  collectLoops_eq g.backEdge_lt

theorem map_header_loops (g : Digraph) :
    (ofDigraph g).loops.map Loop.header =
      (List.range g.size).filter fun v ↦ (ofDigraph g).backEdges.any (·.2 == v) := by
  rw [loops_eq, List.map_map]
  refine (List.map_congr_left fun h _ ↦ ?_).trans (List.map_id _)
  rw [Function.comp_apply, withBorder, header_loopOf, id]

theorem pairwise_header (g : Digraph) :
    ((ofDigraph g).loops.map Loop.header).Pairwise (· < ·) := by
  rw [map_header_loops]
  exact List.pairwise_lt_range.filter _

end LoopNest

end FlowFacts

import Mathlib.Data.Finset.Card
import Mathlib.Data.Finset.Dedup
import FlowFacts.BitSet.Lemmas
import FlowFacts.Digraph.Search

/-!
Depth-first search finds exactly the nodes that walks from its start reach, each once. Nodes that
wait on the stack or have not been pushed yet use up the budget, which the search never exceeds; so
it ends with an empty stack. By then every successor of a found node was pushed, hence found, and
as a node is marked when it is pushed, it is not found again.
-/

set_option autoImplicit false
set_option relaxedAutoImplicit false

namespace FlowFacts.Digraph

/-- A walk along successors, with all its nodes in their order. -/
inductive Walk (g : Digraph) (u : Nat) : List Nat → Nat → Prop
  | refl : Walk g u [u] u
  | concat {v w : Nat} {nodes : List Nat} (h : Walk g u nodes v) (hw : w ∈ g.succs v) :
      Walk g u (nodes ++ [w]) w

variable {g : Digraph} {u v w : Nat} {nodes : List Nat}

theorem lt_size_of_mem_succs (h : w ∈ g.succs v) : v < g.size := by
  unfold succs at h
  split at h
  · next hnode => exact (Array.getElem?_eq_some_iff.mp hnode).1
  · cases h

namespace Walk

theorem source_mem (h : g.Walk u nodes v) : u ∈ nodes := by
  induction h with
  | refl => exact List.mem_singleton_self u
  | concat _ _ ih => exact List.mem_append_left _ ih

theorem target_mem (h : g.Walk u nodes v) : v ∈ nodes := by
  cases h with
  | refl => exact List.mem_singleton_self _
  | concat _ _ => exact List.mem_append_right _ (List.mem_singleton_self _)

/-- A walk that ends in the graph stays in it. -/
theorem lt_size (h : g.Walk u nodes v) (hv : v < g.size) : ∀ x ∈ nodes, x < g.size := by
  induction h with
  | refl =>
    intro x hx
    rwa [List.mem_singleton.mp hx]
  | concat _ hw ih =>
    intro x hx
    rcases List.mem_append.mp hx with hx | hx
    · exact ih (lt_size_of_mem_succs hw) x hx
    · rwa [List.mem_singleton.mp hx]

/-- What holds at the start of a walk and is handed on to successors holds at its end. -/
theorem closed {P : Nat → Prop} (hclosed : ∀ v, P v → ∀ w ∈ g.succs v, P w)
    (h : g.Walk u nodes v) (hu : P u) : P v := by
  induction h with
  | refl => exact hu
  | concat _ hw ih => exact hclosed _ ih _ hw

end Walk

namespace Frontier

variable {f : Frontier}

theorem mem_marked_push : w ∈ (f.push v).marked ↔ w = v ∨ w ∈ f.marked := by
  unfold push
  split_ifs with hv
  · constructor
    · exact Or.inr
    · rintro (rfl | hw)
      · exact hv
      · exact hw
  · exact BitSet.mem_insert

theorem mem_stack_push (h : w ∈ f.stack) : w ∈ (f.push v).stack := by
  unfold push
  split_ifs
  · exact h
  · exact List.mem_cons_of_mem v h

/-- What a push marks for the first time waits on the stack. -/
theorem mem_stack_of_mem_marked_push (h : w ∈ (f.push v).marked) :
    w ∈ f.marked ∨ w ∈ (f.push v).stack := by
  unfold push at h ⊢
  split_ifs at h ⊢ with hv
  · exact Or.inl h
  · rcases BitSet.mem_insert.mp h with rfl | h
    · exact Or.inr List.mem_cons_self
    · exact Or.inl h

section Pushes

variable {pushed : List Nat}

theorem mem_marked_foldl_push :
    w ∈ (pushed.foldl push f).marked ↔ w ∈ pushed ∨ w ∈ f.marked := by
  induction pushed generalizing f with
  | nil => simp
  | cons v rest ih =>
    rw [List.foldl_cons, ih, mem_marked_push, List.mem_cons, or_left_comm, or_assoc]

theorem mem_stack_foldl_push (h : w ∈ f.stack) : w ∈ (pushed.foldl push f).stack :=
  List.foldlRecOn (motive := fun f' : Frontier ↦ w ∈ f'.stack) pushed push h
    fun _ hw _ _ ↦ mem_stack_push hw

theorem mem_stack_of_mem_marked_foldl_push (h : w ∈ (pushed.foldl push f).marked) :
    w ∈ f.marked ∨ w ∈ (pushed.foldl push f).stack := by
  induction pushed generalizing f with
  | nil => exact Or.inl h
  | cons v rest ih =>
    rcases ih h with hmarked | hstack
    · exact (mem_stack_of_mem_marked_push hmarked).imp_right fun hw ↦
        mem_stack_foldl_push (f := f.push v) hw
    · exact Or.inr hstack

theorem forall_mem_stack_foldl_push {P : Nat → Prop} (hf : ∀ v ∈ f.stack, P v)
    (hpushed : ∀ v ∈ pushed, P v) : ∀ v ∈ (pushed.foldl push f).stack, P v := by
  refine List.foldlRecOn (motive := fun f' : Frontier ↦ ∀ v ∈ f'.stack, P v) pushed push hf
    fun f' hf' v hv ↦ ?_
  unfold push
  split_ifs
  · exact hf'
  · intro w hw
    rcases List.mem_cons.mp hw with rfl | hw
    · exact hpushed _ hv
    · exact hf' w hw

end Pushes

/-- How many of the given nodes are yet to leave the stack, counting the stack itself. -/
def pending (f : Frontier) (known : Finset Nat) : Nat :=
  f.stack.length + (known.filter fun v ↦ ¬f.marked.contains v).card

theorem pending_push {known : Finset Nat} (hv : v ∈ known) :
    (f.push v).pending known = f.pending known := by
  unfold push
  split_ifs with hmarked
  · rfl
  · have hsplit : known.filter (fun w ↦ ¬f.marked.contains w) =
        insert v (known.filter fun w ↦ ¬(f.marked.insert v).contains w) := by
      ext w
      by_cases hw : w = v <;> simp [hw, hv, hmarked]
    have hnew : v ∉ known.filter fun w ↦ ¬(f.marked.insert v).contains w := by simp
    simp only [pending]
    rw [hsplit, Finset.card_insert_of_notMem hnew, List.length_cons]
    omega

theorem pending_foldl_push {known : Finset Nat} {pushed : List Nat} (h : ∀ v ∈ pushed, v ∈ known) :
    (pushed.foldl push f).pending known = f.pending known := by
  induction pushed generalizing f with
  | nil => rfl
  | cons v rest ih =>
    rw [List.foldl_cons, ih fun w hw ↦ h w (List.mem_cons_of_mem v hw),
      pending_push (h v List.mem_cons_self)]

/-- What waits was marked, and only once. -/
structure Sound (f : Frontier) : Prop where
  nodup : f.stack.Nodup
  mem_marked : ∀ v ∈ f.stack, v ∈ f.marked

theorem Sound.pop (hf : f.Sound) {rest : List Nat} (hstack : f.stack = v :: rest) :
    Sound { f with stack := rest } := by
  obtain ⟨hnodup, hmarked⟩ := hf
  rw [hstack] at hnodup hmarked
  exact ⟨(List.nodup_cons.mp hnodup).2, fun w hw ↦ hmarked w (List.mem_cons_of_mem v hw)⟩

theorem Sound.push (hf : f.Sound) (v : Nat) : (f.push v).Sound := by
  unfold Frontier.push
  split_ifs with hv
  · exact hf
  · refine ⟨List.nodup_cons.mpr ⟨fun hmem ↦ hv (hf.mem_marked v hmem), hf.nodup⟩, fun w hw ↦ ?_⟩
    rw [BitSet.mem_insert]
    exact (List.mem_cons.mp hw).imp_right (hf.mem_marked w)

theorem Sound.foldl_push (hf : f.Sound) (pushed : List Nat) :
    (pushed.foldl Frontier.push f).Sound :=
  List.foldlRecOn (motive := Sound) pushed _ hf fun _ hf' v _ ↦ hf'.push v

/-- A node that was marked is not pushed again. -/
theorem mem_stack_of_mem_stack_foldl_push {pushed : List Nat} (hw : w ∈ f.marked)
    (h : w ∈ (pushed.foldl Frontier.push f).stack) : w ∈ f.stack := by
  induction pushed generalizing f with
  | nil => exact h
  | cons v rest ih =>
    have hstack := ih (mem_marked_push.mpr (Or.inr hw)) h
    unfold Frontier.push at hstack
    split_ifs at hstack with hv
    · exact hstack
    · exact (List.mem_cons.mp hstack).resolve_left fun heq ↦ hv (heq ▸ hw)

end Frontier

open Frontier

/-! ### The search without a budget -/

/-- The nodes that leave the stack, in their order, until it is empty. -/
inductive Drains (g : Digraph) : Frontier → List Nat → Prop
  | done {f : Frontier} (hstack : f.stack = []) : Drains g f []
  | next {f : Frontier} {v : Nat} {rest order : List Nat} (hstack : f.stack = v :: rest)
      (hnext : Drains g ((g.succs v).reverse.foldl push { f with stack := rest }) order) :
      Drains g f (v :: order)

/-- A budget for all that is yet to leave the stack is never exceeded. -/
theorem drains_searchFrom {known : Finset Nat} (hknown : ∀ v, ∀ w ∈ g.succs v, w ∈ known)
    {budget : Nat} {f : Frontier} (hbudget : f.pending known ≤ budget) :
    g.Drains f (g.searchFrom budget f) := by
  induction budget generalizing f with
  | zero => exact .done (List.length_eq_zero_iff.mp (by unfold pending at hbudget; omega))
  | succ budget ih =>
    rw [searchFrom]
    split
    · next hstack => exact .done hstack
    · next v rest hstack =>
      refine .next hstack (ih ?_)
      rw [pending_foldl_push fun w hw ↦ hknown v w (List.mem_reverse.mp hw)]
      simp only [pending, hstack, List.length_cons] at hbudget ⊢
      omega

namespace Drains

variable {f : Frontier} {order : List Nat}

theorem head?_eq (h : g.Drains f order) : order.head? = f.stack.head? := by
  cases h with
  | done hstack => rw [hstack]
  | next hstack _ => rw [hstack, List.head?_cons, List.head?_cons]

/-- The search yields nothing but what is handed on from the stack to successors. -/
theorem forall_mem {P : Nat → Prop} (hclosed : ∀ v, P v → ∀ w ∈ g.succs v, P w)
    (h : g.Drains f order) (hf : ∀ v ∈ f.stack, P v) : ∀ v ∈ order, P v := by
  induction h with
  | done => exact fun _ hw ↦ absurd hw List.not_mem_nil
  | @next f v rest order hstack _ ih =>
    rw [hstack] at hf
    have hv := hf v List.mem_cons_self
    intro w hw
    rcases List.mem_cons.mp hw with rfl | hw
    · exact hv
    · refine ih (forall_mem_stack_foldl_push (fun x hx ↦ hf x (List.mem_cons_of_mem v hx))
        fun x hx ↦ ?_) w hw
      exact hclosed v hv x (List.mem_reverse.mp hx)

/-- The search yields the whole stack and, of all that it yields, every successor that was not
marked before. -/
theorem complete (h : g.Drains f order) :
    (∀ v ∈ f.stack, v ∈ order) ∧
      ∀ v ∈ order, ∀ w ∈ g.succs v, w ∈ f.marked ∨ w ∈ order := by
  induction h with
  | done hstack => simp [hstack]
  | @next f v rest order hstack _ ih =>
    obtain ⟨hyielded, hsuccs⟩ := ih
    have hmarked : ∀ w ∈ ((g.succs v).reverse.foldl push { f with stack := rest }).marked,
        w ∈ f.marked ∨ w ∈ order := fun w hw ↦
      (mem_stack_of_mem_marked_foldl_push hw).imp_right (hyielded w)
    refine ⟨fun w hw ↦ ?_, fun x hx w hw ↦ ?_⟩
    · rw [hstack] at hw
      rcases List.mem_cons.mp hw with rfl | hw
      · exact List.mem_cons_self
      · exact List.mem_cons_of_mem v (hyielded w (mem_stack_foldl_push hw))
    · refine Or.imp_right (List.mem_cons_of_mem v) ?_
      rcases List.mem_cons.mp hx with rfl | hx
      · exact hmarked w (mem_marked_foldl_push.mpr (Or.inl (List.mem_reverse.mpr hw)))
      · exact (hsuccs x hx w hw).elim (hmarked w) Or.inr

/-- What was marked before and does not wait is not yielded, and the rest only once. -/
theorem nodup (h : g.Drains f order) (hf : f.Sound) :
    order.Nodup ∧ ∀ v ∈ order, v ∈ f.marked → v ∈ f.stack := by
  induction h with
  | done => exact ⟨List.nodup_nil, fun _ hv ↦ absurd hv List.not_mem_nil⟩
  | @next f v rest order hstack _ ih =>
    have hrest : Sound { f with stack := rest } := hf.pop hstack
    obtain ⟨hnodup, hyielded⟩ := ih (hrest.foldl_push _)
    have hv : v ∈ f.marked := hf.mem_marked v (hstack ▸ List.mem_cons_self)
    -- a marked node that is yielded later has been waiting below
    have hlater : ∀ w ∈ order, w ∈ f.marked → w ∈ rest := fun w hw hmarked ↦
      mem_stack_of_mem_stack_foldl_push (f := { f with stack := rest }) hmarked
        (hyielded w hw (mem_marked_foldl_push.mpr (Or.inr hmarked)))
    have hnot : v ∉ rest := (List.nodup_cons.mp (hstack ▸ hf.nodup)).1
    refine ⟨List.nodup_cons.mpr ⟨fun hmem ↦ hnot (hlater v hmem hv), hnodup⟩, fun w hw hmarked ↦ ?_⟩
    rw [hstack]
    rcases List.mem_cons.mp hw with rfl | hw
    · exact List.mem_cons_self
    · exact List.mem_cons_of_mem v (hlater w hw hmarked)

end Drains

/-- The start and all successors. -/
def known (g : Digraph) (start : Nat) : Finset Nat :=
  (start :: g.nodes.toList.flatMap Neighbours.succs).toFinset

theorem mem_known_of_mem_succs (start : Nat) (h : w ∈ g.succs v) : w ∈ g.known start := by
  unfold succs at h
  split at h
  · next node hnode =>
    have hmem : node ∈ g.nodes.toList := Array.mem_toList_iff.mpr (Array.mem_of_getElem? hnode)
    rw [known, List.mem_toFinset]
    exact List.mem_cons_of_mem start (List.mem_flatMap.mpr ⟨node, hmem, h⟩)
  · cases h

theorem pending_start_le (g : Digraph) (start : Nat) :
    (push { stack := [], marked := BitSet.new g.size } start).pending (g.known start) ≤
      g.searchBudget := by
  have hstart : start ∈ g.known start := List.mem_toFinset.mpr List.mem_cons_self
  rw [pending_push hstart]
  have hcard := (Finset.card_filter_le (g.known start)
    fun v ↦ ¬(BitSet.new g.size).contains v).trans (List.toFinset_card_le _)
  rw [List.length_cons] at hcard
  simp only [pending, searchBudget, List.length_nil]
  omega

/-- What waits at first: the start, unless it is past the end. -/
def initialFrontier (g : Digraph) (start : Nat) : Frontier :=
  if start < g.size then push { stack := [], marked := BitSet.new g.size } start
  else { stack := [], marked := BitSet.new g.size }

theorem drains_search (g : Digraph) (start : Nat) :
    g.Drains (g.initialFrontier start) (g.search start) := by
  unfold initialFrontier search
  split_ifs with hstart
  · exact drains_searchFrom (fun _ _ hw ↦ mem_known_of_mem_succs start hw)
      (g.pending_start_le start)
  · exact .done rfl

section Known

variable {start : Nat} (hstart : start < g.size)

include hstart

theorem stack_initialFrontier : (g.initialFrontier start).stack = [start] := by
  simp [initialFrontier, hstart, push]

theorem mem_marked_initialFrontier : v ∈ (g.initialFrontier start).marked ↔ v = start := by
  rw [initialFrontier, if_pos hstart, mem_marked_push]
  exact or_iff_left (BitSet.notMem_new _ _)

end Known

theorem search_of_size_le {start : Nat} (hstart : g.size ≤ start) : g.search start = [] :=
  if_neg (Nat.not_lt.mpr hstart)

/-- The search finds what walks from its start reach, and nothing from a start past the end. -/
theorem mem_search_iff {start : Nat} :
    v ∈ g.search start ↔ start < g.size ∧ ∃ nodes, g.Walk start nodes v := by
  by_cases hstart : start < g.size
  · rw [and_iff_right hstart]
    have hdrains := g.drains_search start
    have hstack := stack_initialFrontier hstart
    constructor
    · refine hdrains.forall_mem (P := fun v ↦ ∃ nodes, g.Walk start nodes v)
        (fun x ⟨nodes, hx⟩ w hw ↦ ⟨_, hx.concat hw⟩) (fun x hx ↦ ?_) v
      rw [hstack, List.mem_singleton] at hx
      exact ⟨[start], hx ▸ .refl⟩
    · rintro ⟨nodes, hwalk⟩
      obtain ⟨hyielded, hsuccs⟩ := hdrains.complete
      have hfirst := hyielded start (hstack ▸ List.mem_singleton_self start)
      refine hwalk.closed (fun x hx w hw ↦ (hsuccs x hx w hw).elim (fun hmarked ↦ ?_) id) hfirst
      rwa [(mem_marked_initialFrontier hstart).mp hmarked]
  · simp [search_of_size_le (Nat.not_lt.mp hstart), hstart]

theorem mem_reachable_iff {start : Nat} :
    v ∈ g.reachable start ↔ start < g.size ∧ ∃ nodes, g.Walk start nodes v := by
  rw [reachable, BitSet.mem_ofList, mem_search_iff]

theorem head?_search {start : Nat} (hstart : start < g.size) :
    (g.search start).head? = some start := by
  rw [(g.drains_search start).head?_eq, stack_initialFrontier hstart]
  rfl

theorem nodup_search (g : Digraph) (start : Nat) : (g.search start).Nodup := by
  by_cases hstart : start < g.size
  · refine ((g.drains_search start).nodup ⟨?_, fun v hv ↦ ?_⟩).1
    · rw [stack_initialFrontier hstart]
      exact List.nodup_singleton start
    · rw [stack_initialFrontier hstart, List.mem_singleton] at hv
      exact (mem_marked_initialFrontier hstart).mpr hv
  · rw [search_of_size_le (Nat.not_lt.mp hstart)]
    exact List.nodup_nil

/-- On any graph, whatever its successor lists name or repeat, the search empties its stack. From a
known start it yields the start first and each node that a walk from there reaches, once; from
another start it yields nothing. The reachable set holds what it yields. -/
theorem search_visits_reachable_once (g : Digraph) (start : Nat) :
    g.Drains (g.initialFrontier start) (g.search start) ∧
      (start < g.size → (g.search start).head? = some start ∧ (g.search start).Nodup ∧
        ∀ v, v ∈ g.search start ↔ ∃ nodes, g.Walk start nodes v) ∧
      (g.size ≤ start → g.search start = []) ∧
      ∀ v, v ∈ g.reachable start ↔ v ∈ g.search start := by
  refine ⟨g.drains_search start, fun hstart ↦ ⟨head?_search hstart, g.nodup_search start,
    fun v ↦ ?_⟩, search_of_size_le, fun v ↦ ?_⟩
  · rw [mem_search_iff, and_iff_right hstart]
  · rw [mem_reachable_iff, mem_search_iff]

/-- A cycle with a repeated edge, a self loop, an edge past the end and a node that nothing
reaches. -/
def tangled : Digraph :=
  ofEdges 4 0 [(0, 2), (0, 1), (0, 2), (1, 1), (1, 7), (2, 0), (3, 1)]

theorem search_visits_reachable_once_tangled :
    tangled.search 0 = [0, 1, 7, 2] ∧ tangled.search 5 = [] ∧
      tangled.Drains (tangled.initialFrontier 0) [0, 1, 7, 2] ∧
      (∃ nodes, tangled.Walk 0 nodes 7) ∧ (¬∃ nodes, tangled.Walk 0 nodes 3) ∧
      7 ∈ tangled.reachable 0 := by
  have hsize : tangled.size = 4 := by simp [tangled, size, ofEdges]
  have horder : tangled.search 0 = [0, 1, 7, 2] := by decide +kernel
  obtain ⟨hdrains, hknown, -, hreachable⟩ := search_visits_reachable_once tangled 0
  obtain ⟨-, -, hmem⟩ := hknown (by omega)
  obtain ⟨-, -, hunknown, -⟩ := search_visits_reachable_once tangled 5
  rw [horder] at hdrains hmem hreachable
  exact ⟨horder, hunknown (by omega), hdrains, (hmem 7).mp (by decide),
    mt (hmem 3).mpr (by decide), (hreachable 7).mpr (by decide)⟩

end FlowFacts.Digraph

import Mathlib.Data.List.Nodup
import FlowFacts.Proofs.BuiltGraph
import FlowFacts.Proofs.GraphSearch
import FlowFacts.Proofs.PathDominance

/-!
The order of the search against the recursive depth-first order. The search marks the successors of
a node when it visits the node, before it goes down into the first of them. So it is the recursion
in which a node claims its unclaimed successors first and traverses them afterwards; a successor
that waits meanwhile is passed over by the nodes visited before its turn, though a depth-first order
would visit it from there. The two orders agree exactly where nothing is overtaken: what comes
between a node and a successor of it was due before that successor. This condition determines the
order, since it leaves one choice for every next node.
-/

set_option autoImplicit false
set_option relaxedAutoImplicit false

namespace FlowFacts

open scoped List

/-! ### Pairs and triples in a list without repetitions -/

section Sublists

variable {α : Type} {l l' s : List α} {x y : α}

theorem sublist_left_of_notMem (h : s ++ [y] <+ l ++ l') (hy : y ∉ l') : s ++ [y] <+ l := by
  obtain ⟨first, second, heq, hfirst, hsecond⟩ := List.sublist_append_iff.mp h
  rcases List.eq_nil_or_concat second with rfl | ⟨init, z, rfl⟩
  · rwa [heq, List.append_nil]
  · rw [List.concat_eq_append, ← List.append_assoc] at heq
    obtain ⟨-, hz⟩ := List.append_inj' heq rfl
    refine absurd (hsecond.subset ?_) hy
    rw [List.singleton_inj.mp hz, List.concat_eq_append]
    exact List.mem_append_right _ (List.mem_singleton_self z)

theorem sublist_right_of_notMem (h : x :: s <+ l ++ l') (hx : x ∉ l) : x :: s <+ l' := by
  obtain ⟨first, second, heq, hfirst, hsecond⟩ := List.sublist_append_iff.mp h
  cases first with
  | nil => rwa [heq]
  | cons z first =>
    obtain ⟨rfl, -⟩ := List.cons.inj heq
    exact absurd (hfirst.subset List.mem_cons_self) hx

theorem notMem_left_of_nodup (h : (l ++ y :: l').Nodup) : y ∉ l := fun hy ↦
  (List.nodup_append'.mp h).2.2 hy List.mem_cons_self

/-- What stands before an element stands in front of it. -/
theorem mem_of_pair_sublist (hnodup : (l ++ y :: l').Nodup) (h : [x, y] <+ l ++ y :: l') :
    x ∈ l := by
  by_contra hx
  have hright := sublist_right_of_notMem h hx
  have hy : y ∉ l' := (List.nodup_cons.mp hnodup.of_append_right).1
  rcases List.sublist_cons_iff.mp hright with htail | ⟨rest, heq, hrest⟩
  · exact hy (htail.subset (List.mem_cons_of_mem x (List.mem_singleton_self y)))
  · obtain ⟨-, rfl⟩ := List.cons.inj heq
    exact hy (hrest.subset (List.mem_singleton_self y))

end Sublists

namespace Digraph

variable {g : Digraph} {v w x : Nat} {seen todo order : List Nat}

/-! ### The recursive order -/

/-- Traversing the nodes of `todo` in turn, when those of `seen` have been visited, visits `order`:
a node that has not been visited by then is visited, and after it its successors are traversed. -/
inductive DepthFirst (g : Digraph) : List Nat → List Nat → List Nat → Prop
  | nil {seen : List Nat} : DepthFirst g seen [] []
  | skip {seen rest order : List Nat} {v : Nat} (hv : v ∈ seen)
      (hrest : DepthFirst g seen rest order) : DepthFirst g seen (v :: rest) order
  | visit {seen rest below order : List Nat} {v : Nat} (hv : v ∉ seen)
      (hbelow : DepthFirst g (v :: seen) (g.succs v) below)
      (hrest : DepthFirst g (below ++ v :: seen) rest order) :
      DepthFirst g seen (v :: rest) (v :: below ++ order)

namespace DepthFirst

theorem unique {order' : List Nat} (h : g.DepthFirst seen todo order)
    (h' : g.DepthFirst seen todo order') : order = order' := by
  induction h generalizing order' with
  | nil =>
    cases h'
    rfl
  | skip hv _ ih =>
    cases h' with
    | skip _ hrest => exact ih hrest
    | visit hv' => exact absurd hv hv'
  | visit hv _ _ ihbelow ihrest =>
    cases h' with
    | skip hv' => exact absurd hv' hv
    | visit _ hbelow hrest =>
      obtain rfl := ihbelow hbelow
      rw [ihrest hrest]

theorem forall_mem {P : Nat → Prop} (hclosed : ∀ v, P v → ∀ w ∈ g.succs v, P w)
    (h : g.DepthFirst seen todo order) (htodo : ∀ v ∈ todo, P v) : ∀ v ∈ order, P v := by
  induction h with
  | nil => exact fun _ hv ↦ absurd hv List.not_mem_nil
  | skip _ _ ih => exact ih (List.forall_mem_cons.mp htodo).2
  | visit _ _ _ ihbelow ihrest =>
    obtain ⟨hv, hrest⟩ := List.forall_mem_cons.mp htodo
    exact List.forall_mem_append.mpr
      ⟨List.forall_mem_cons.mpr ⟨hv, ihbelow (hclosed _ hv)⟩, ihrest hrest⟩

/-- Nothing is visited twice. -/
theorem nodup (h : g.DepthFirst seen todo order) : order.Nodup ∧ ∀ v ∈ order, v ∉ seen := by
  induction h with
  | nil => exact ⟨List.nodup_nil, fun _ hv ↦ absurd hv List.not_mem_nil⟩
  | skip _ _ ih => exact ih
  | @visit seen rest below order v hv _ _ ihbelow ihrest =>
    obtain ⟨hbelow, hnewBelow⟩ := ihbelow
    obtain ⟨hrest, hnewRest⟩ := ihrest
    have hfirst : v ∉ below := fun hmem ↦ hnewBelow v hmem List.mem_cons_self
    have hdisjoint : ∀ x ∈ order, x ∉ v :: below := fun x hx hmem ↦ by
      refine hnewRest x hx ?_
      rcases List.mem_cons.mp hmem with rfl | hmem
      · exact List.mem_append_right _ List.mem_cons_self
      · exact List.mem_append_left _ hmem
    refine ⟨List.nodup_append'.mpr ⟨List.nodup_cons.mpr ⟨hfirst, hbelow⟩, hrest,
      fun x hx hmem ↦ hdisjoint x hmem hx⟩, fun x hx hseen ↦ ?_⟩
    rcases List.mem_append.mp hx with hx | hx
    · rcases List.mem_cons.mp hx with rfl | hx
      · exact hv hseen
      · exact hnewBelow x hx (List.mem_cons_of_mem v hseen)
    · exact hnewRest x hx (List.mem_append_right _ (List.mem_cons_of_mem v hseen))

theorem mem_of_mem_todo (h : g.DepthFirst seen todo order) :
    ∀ v ∈ todo, v ∈ seen ∨ v ∈ order := by
  induction h with
  | nil => exact fun _ hv ↦ absurd hv List.not_mem_nil
  | skip hv _ ih => exact List.forall_mem_cons.mpr ⟨Or.inl hv, ih⟩
  | @visit seen rest below order v _ _ _ _ ihrest =>
    refine List.forall_mem_cons.mpr ⟨Or.inr List.mem_cons_self, fun x hx ↦ ?_⟩
    have hlater := ihrest x hx
    simp only [List.mem_append, List.mem_cons] at hlater ⊢
    tauto

/-- The successors of what is visited are visited. -/
theorem mem_of_mem_succs (h : g.DepthFirst seen todo order) :
    ∀ v ∈ order, ∀ w ∈ g.succs v, w ∈ seen ∨ w ∈ order := by
  induction h with
  | nil => exact fun _ hv ↦ absurd hv List.not_mem_nil
  | skip _ _ ih => exact ih
  | @visit seen rest below order u _ hbelow _ ihbelow ihrest =>
    intro v hv w hw
    have hnext : w ∈ u :: seen ∨ w ∈ below ∨ w ∈ order := by
      rcases List.mem_append.mp hv with hv | hv
      · rcases List.mem_cons.mp hv with rfl | hv
        · exact (hbelow.mem_of_mem_todo w hw).imp_right Or.inl
        · exact (ihbelow v hv w hw).imp_right Or.inl
      · have hlater := ihrest v hv w hw
        rw [List.mem_append] at hlater
        tauto
    simp only [List.mem_append, List.mem_cons] at hnext ⊢
    tauto

/-- What is visited stands in the list or follows a node visited before it. -/
theorem mem_todo_or_follows (h : g.DepthFirst seen todo order) :
    ∀ x ∈ order, x ∈ todo ∨ ∃ y, [y, x] <+ order ∧ x ∈ g.succs y := by
  induction h with
  | nil => exact fun _ hx ↦ absurd hx List.not_mem_nil
  | skip _ _ ih => exact fun x hx ↦ (ih x hx).imp_left (List.mem_cons_of_mem _)
  | @visit seen rest below order v _ _ _ ihbelow ihrest =>
    intro x hx
    rcases List.mem_append.mp hx with hx | hx
    · rcases List.mem_cons.mp hx with rfl | hx
      · exact Or.inl List.mem_cons_self
      · refine Or.inr ?_
        rcases ihbelow x hx with hsucc | ⟨y, hyx, hsucc⟩
        · exact ⟨v, ((List.singleton_sublist.mpr hx).cons_cons v).trans
            (List.sublist_append_left _ _), hsucc⟩
        · exact ⟨y, (hyx.cons v).trans (List.sublist_append_left _ _), hsucc⟩
    · refine (ihrest x hx).imp (List.mem_cons_of_mem v) fun ⟨y, hyx, hsucc⟩ ↦ ?_
      exact ⟨y, hyx.trans (List.sublist_append_right _ _), hsucc⟩

/-- What is visited before a node of the list follows a node visited earlier, or stands before that
node in the list. -/
theorem follows_or_stands_before (h : g.DepthFirst seen todo order) (hxw : [x, w] <+ order)
    (hw : w ∈ todo) : (∃ y, [y, x] <+ order ∧ x ∈ g.succs y) ∨ [x, w] <+ todo := by
  induction h with
  | nil => exact absurd hw List.not_mem_nil
  | @skip seen rest order v hv hrest ih =>
    have hseen : w ∉ seen := hrest.nodup.2 w (hxw.subset (by simp))
    have hmem : w ∈ rest := (List.mem_cons.mp hw).resolve_left fun heq ↦ hseen (heq ▸ hv)
    exact (ih hxw hmem).imp_right fun hbefore ↦ hbefore.cons v
  | @visit seen rest below order v hv hbelow hrest ihbelow ihrest =>
    obtain ⟨hnodup, -⟩ := (DepthFirst.visit hv hbelow hrest).nodup
    have hwv : w ≠ v := by
      rintro rfl
      exact List.not_mem_nil (mem_of_pair_sublist (l := []) hnodup hxw)
    have hmem : w ∈ rest := (List.mem_cons.mp hw).resolve_left hwv
    by_cases hxv : x = v
    · subst hxv
      exact Or.inr ((List.singleton_sublist.mpr hmem).cons_cons x)
    by_cases hx : x ∈ below
    · -- below `v` everything follows `v` or a node below
      refine Or.inl ?_
      rcases hbelow.mem_todo_or_follows x hx with hsucc | ⟨y, hyx, hsucc⟩
      · exact ⟨v, ((List.singleton_sublist.mpr hx).cons_cons v).trans
          (List.sublist_append_left _ _), hsucc⟩
      · exact ⟨y, (hyx.cons v).trans (List.sublist_append_left _ _), hsucc⟩
    · have hlater : [x, w] <+ order := sublist_right_of_notMem hxw (by simp [hxv, hx])
      rcases ihrest hlater hmem with ⟨y, hyx, hsucc⟩ | hbefore
      · exact Or.inl ⟨y, hyx.trans (List.sublist_append_right _ _), hsucc⟩
      · exact Or.inr (hbefore.cons v)

end DepthFirst

/-- What an order puts between a node and a successor of it was due before that successor: it
follows a node that the order puts after the first one, or it precedes the successor in the list. -/
def NothingOvertaken (g : Digraph) (order : List Nat) : Prop :=
  ∀ v ∈ order, ∀ x ∈ order, ∀ w ∈ g.succs v, [v, x, w] <+ order →
    (∃ y ∈ order, [v, y, x] <+ order ∧ x ∈ g.succs y) ∨ [x, w] <+ g.succs v

instance decidableNothingOvertaken (g : Digraph) (order : List Nat) :
    Decidable (g.NothingOvertaken order) :=
  inferInstanceAs (Decidable (∀ v ∈ order, ∀ x ∈ order, ∀ w ∈ g.succs v, [v, x, w] <+ order →
    (∃ y ∈ order, [v, y, x] <+ order ∧ x ∈ g.succs y) ∨ [x, w] <+ g.succs v))

theorem DepthFirst.nothingOvertaken (h : g.DepthFirst seen todo order) :
    g.NothingOvertaken order := by
  suffices hfollows : ∀ v x w, w ∈ g.succs v → [v, x, w] <+ order →
      (∃ y, [v, y, x] <+ order ∧ x ∈ g.succs y) ∨ [x, w] <+ g.succs v by
    intro v _ x _ w hw hsub
    refine (hfollows v x w hw hsub).imp_left fun ⟨y, hyx, hsucc⟩ ↦ ⟨y, hyx.subset ?_, hyx, hsucc⟩
    exact List.mem_cons_of_mem v List.mem_cons_self
  induction h with
  | nil => exact fun v x w _ hsub ↦ absurd (hsub.subset List.mem_cons_self) List.not_mem_nil
  | skip _ _ ih => exact ih
  | @visit seen rest below order u hu hbelow hrest ihbelow ihrest =>
    intro v x w hw hsub
    obtain ⟨hnodup, hnew⟩ := (DepthFirst.visit hu hbelow hrest).nodup
    have hmem : w ∈ u :: below ++ order := hsub.subset (by simp)
    have hwu : w ≠ u := by
      rintro rfl
      exact List.not_mem_nil (mem_of_pair_sublist (l := []) (x := x) hnodup
        ((List.sublist_cons_self v _).trans hsub))
    -- a successor of `u` or of a node below is visited below
    have hinside : v ∈ u :: below → [v, x, w] <+ u :: below := by
      intro hv
      have hwbelow : w ∈ u :: seen ∨ w ∈ below := by
        rcases List.mem_cons.mp hv with rfl | hv
        · exact hbelow.mem_of_mem_todo w hw
        · exact hbelow.mem_of_mem_succs v hv w hw
      have hnot : w ∉ u :: seen := fun hseen ↦
        (List.mem_cons.mp hseen).elim hwu (hnew w hmem)
      have hdisjoint := (List.nodup_append'.mp hnodup).2.2
      exact sublist_left_of_notMem (s := [v, x]) hsub
        (hdisjoint (List.mem_cons_of_mem u (hwbelow.resolve_left hnot)))
    by_cases hvu : v = u
    · subst hvu
      have hxw : [x, w] <+ below := List.cons_sublist_cons.mp (hinside List.mem_cons_self)
      refine (hbelow.follows_or_stands_before hxw hw).imp_left fun ⟨y, hyx, hsucc⟩ ↦ ?_
      exact ⟨y, (hyx.cons_cons v).trans (List.sublist_append_left _ _), hsucc⟩
    by_cases hv : v ∈ below
    · have hall : [v, x, w] <+ below :=
        (hinside (List.mem_cons_of_mem u hv)).of_cons_of_ne hvu
      refine (ihbelow v x w hw hall).imp_left fun ⟨y, hyx, hsucc⟩ ↦ ?_
      exact ⟨y, (hyx.cons u).trans (List.sublist_append_left _ _), hsucc⟩
    · have hall : [v, x, w] <+ order := sublist_right_of_notMem hsub (by simp [hvu, hv])
      refine (ihrest v x w hw hall).imp_left fun ⟨y, hyx, hsucc⟩ ↦ ?_
      exact ⟨y, hyx.trans (List.sublist_append_right _ _), hsucc⟩

/-- The nodes of the graph that are not among those seen. -/
def unseen (g : Digraph) (seen : List Nat) : Finset Nat :=
  (Finset.range g.size).filter (· ∉ seen)

theorem unseen_subset {seen' : List Nat} (h : seen ⊆ seen') : g.unseen seen' ⊆ g.unseen seen :=
  Finset.monotone_filter_right _ fun _ _ hx hseen ↦ hx (h hseen)

/-- There is a depth-first order: each visit leaves fewer nodes of the graph unseen. -/
theorem exists_depthFirst {n : Nat} (hn : (g.unseen seen).card ≤ n) :
    ∃ order, g.DepthFirst seen todo order := by
  induction n using Nat.strong_induction_on generalizing seen todo with
  | _ n ih =>
    induction todo generalizing seen with
    | nil => exact ⟨[], .nil⟩
    | cons v rest ihrest =>
      by_cases hv : v ∈ seen
      · obtain ⟨order, horder⟩ := ihrest hn
        exact ⟨order, .skip hv horder⟩
      obtain ⟨below, hbelow⟩ : ∃ below, g.DepthFirst (v :: seen) (g.succs v) below := by
        by_cases hsize : v < g.size
        · have hless : (g.unseen (v :: seen)).card < (g.unseen seen).card :=
            Finset.card_lt_card ((Finset.ssubset_iff_of_subset
              (unseen_subset (List.subset_cons_self v seen))).mpr
                ⟨v, by simp [unseen, hsize, hv], by simp [unseen]⟩)
          exact ih _ (Nat.lt_of_lt_of_le hless hn) (Nat.le_refl _)
        · have hnone : g.succs v = [] := List.eq_nil_iff_forall_not_mem.mpr fun w hw ↦
            hsize (lt_size_of_mem_succs hw)
          rw [hnone]
          exact ⟨[], .nil⟩
      have hseen : seen ⊆ below ++ v :: seen := fun x hx ↦
        List.mem_append_right _ (List.mem_cons_of_mem v hx)
      obtain ⟨order, hrest⟩ : ∃ order, g.DepthFirst (below ++ v :: seen) rest order :=
        ihrest (Nat.le_trans (Finset.card_le_card (unseen_subset hseen)) hn)
      exact ⟨v :: below ++ order, .visit hv hbelow hrest⟩

/-! ### The condition determines the order -/

/-- The next node of an order that overtakes nothing is the first unvisited successor of the last
visited node that has one. -/
theorem NothingOvertaken.next {visited first since later : List Nat} {n : Nat}
    (h : g.NothingOvertaken (visited ++ n :: later)) (hnodup : (visited ++ n :: later).Nodup)
    (hsuccs : (g.succs v).Nodup) (hclosed : ∀ w ∈ g.succs v, w ∈ visited ++ n :: later)
    (hvisited : visited = first ++ v :: since)
    (hsince : ∀ y ∈ since, ∀ w ∈ g.succs y, w ∈ visited)
    (hsome : ∃ w ∈ g.succs v, w ∉ visited) : (g.succs v).find? (· ∉ visited) = some n := by
  have hn : n ∉ visited := notMem_left_of_nodup hnodup
  have hv : v ∈ visited := by simp [hvisited]
  cases hfind : (g.succs v).find? (· ∉ visited) with
  | none =>
    obtain ⟨w, hw, hnot⟩ := hsome
    exact absurd (by simpa using List.find?_eq_none.mp hfind w hw) hnot
  | some w =>
    obtain ⟨hnot, before, after, hsplit, hbefore⟩ := List.find?_eq_some_iff_append.mp hfind
    have hw : w ∈ g.succs v := List.mem_of_find?_eq_some hfind
    rcases List.mem_append.mp (hclosed w hw) with hmem | hmem
    · exact absurd hmem (by simpa using hnot)
    rcases List.mem_cons.mp hmem with rfl | hlater
    · rfl
    -- otherwise `n` comes between `v` and `w`, and nothing makes it due there
    have hsub : [v] ++ [n, w] <+ visited ++ n :: later :=
      (List.singleton_sublist.mpr hv).append ((List.singleton_sublist.mpr hlater).cons_cons n)
    rcases h v (List.mem_append_left _ hv) n (by simp) w hw hsub with
      ⟨y, -, hyn, hsucc⟩ | hstands
    · rw [hvisited, List.append_assoc] at hyn hnodup
      obtain ⟨-, hright, hdisjoint⟩ := List.nodup_append'.mp hnodup
      have hfirst : v ∉ first := fun hmem ↦ hdisjoint hmem List.mem_cons_self
      have hpair := List.cons_sublist_cons.mp (sublist_right_of_notMem hyn hfirst)
      exact absurd (hsince y (mem_of_pair_sublist (List.nodup_cons.mp hright).2 hpair) n hsucc) hn
    · rw [hsplit] at hstands hsuccs
      exact absurd (by simpa using hbefore n (mem_of_pair_sublist hsuccs hstands)) hn

/-- The last of the visited nodes with an unvisited successor. -/
theorem exists_last_open {visited : List Nat} (h : ∃ v ∈ visited, ∃ w ∈ g.succs v, w ∉ visited) :
    ∃ first v since, visited = first ++ v :: since ∧ (∃ w ∈ g.succs v, w ∉ visited) ∧
      ∀ y ∈ since, ∀ w ∈ g.succs y, w ∈ visited := by
  obtain ⟨v, hv⟩ : ∃ v, visited.reverse.find? (fun v ↦ decide (∃ w ∈ g.succs v, w ∉ visited)) =
      some v := by
    rw [← Option.isSome_iff_exists, List.find?_isSome]
    simpa using h
  obtain ⟨hopen, since, first, hsplit, hsince⟩ := List.find?_eq_some_iff_append.mp hv
  refine ⟨first.reverse, v, since.reverse, ?_, by simpa using hopen, fun y hy ↦ ?_⟩
  · rw [← List.reverse_inj, hsplit]
    simp
  · simpa using hsince y (List.mem_reverse.mp hy)

/-- An order of the nodes that walks from a start reach, each once and the start first. -/
structure Exhausts (g : Digraph) (start : Nat) (order : List Nat) : Prop where
  head : order.head? = some start
  nodup : order.Nodup
  mem_iff : ∀ {v : Nat}, v ∈ order ↔ ∃ nodes, g.Walk start nodes v

namespace Exhausts

variable {start n n' : Nat} {visited later later' order' : List Nat}

theorem mem_of_mem_succs (h : g.Exhausts start order) (hv : v ∈ order) (hw : w ∈ g.succs v) :
    w ∈ order := by
  obtain ⟨nodes, hwalk⟩ := h.mem_iff.mp hv
  exact h.mem_iff.mpr ⟨_, hwalk.concat hw⟩

/-- While a node is left, a visited node has an unvisited successor. -/
theorem exists_open (h : g.Exhausts start order) (hstart : start ∈ visited) (hx : x ∈ order)
    (hnot : x ∉ visited) : ∃ v ∈ visited, ∃ w ∈ g.succs v, w ∉ visited := by
  by_contra hclosed
  simp only [not_exists, not_and, not_not] at hclosed
  obtain ⟨nodes, hwalk⟩ := h.mem_iff.mp hx
  exact hnot (hwalk.closed hclosed hstart)

/-- An order that goes on has not exhausted the nodes yet. -/
theorem not_exhausts_left (h : g.Exhausts start (visited ++ n :: later)) :
    ¬g.Exhausts start visited := fun hleft ↦ by
  have hn : n ∈ visited := hleft.mem_iff.mpr (h.mem_iff.mp (by simp))
  exact notMem_left_of_nodup h.nodup hn

section Distinct

variable (hsuccs : ∀ v, (g.succs v).Nodup)

include hsuccs

/-- Two orders that overtake nothing go on with the same node. -/
theorem next_unique (hstart : start ∈ visited) (h : g.Exhausts start (visited ++ n :: later))
    (hover : g.NothingOvertaken (visited ++ n :: later))
    (h' : g.Exhausts start (visited ++ n' :: later'))
    (hover' : g.NothingOvertaken (visited ++ n' :: later')) : n = n' := by
  obtain ⟨first, v, since, hvisited, hsome, hsince⟩ :=
    exists_last_open (h.exists_open hstart (by simp) (notMem_left_of_nodup h.nodup))
  have hv : v ∈ visited := by simp [hvisited]
  have hnext : (g.succs v).find? (· ∉ visited) = some n :=
    hover.next h.nodup (hsuccs v) (fun _ ↦ h.mem_of_mem_succs (List.mem_append_left _ hv)) hvisited
      hsince hsome
  have hnext' : (g.succs v).find? (· ∉ visited) = some n' :=
    hover'.next h'.nodup (hsuccs v) (fun _ ↦ h'.mem_of_mem_succs (List.mem_append_left _ hv))
      hvisited hsince hsome
  exact Option.some.inj (hnext.symm.trans hnext')

theorem later_unique (hstart : start ∈ visited) (h : g.Exhausts start (visited ++ later))
    (hover : g.NothingOvertaken (visited ++ later))
    (h' : g.Exhausts start (visited ++ later')) (hover' : g.NothingOvertaken (visited ++ later')) :
    later = later' := by
  induction later generalizing visited later' with
  | nil =>
    rw [List.append_nil] at h
    cases later' with
    | nil => rfl
    | cons n' later' => exact absurd h h'.not_exhausts_left
  | cons n later ih =>
    cases later' with
    | nil =>
      rw [List.append_nil] at h'
      exact absurd h' h.not_exhausts_left
    | cons n' later' =>
      obtain rfl := next_unique hsuccs hstart h hover h' hover'
      rw [List.append_cons] at h hover h' hover'
      rw [ih (List.mem_append_left _ hstart) h hover h' hover']

/-- There is at most one order that overtakes nothing. -/
theorem eq_of_nothingOvertaken (h : g.Exhausts start order) (hover : g.NothingOvertaken order)
    (h' : g.Exhausts start order') (hover' : g.NothingOvertaken order') : order = order' := by
  obtain ⟨later, rfl⟩ := List.head?_eq_some_iff.mp h.head
  obtain ⟨later', rfl⟩ := List.head?_eq_some_iff.mp h'.head
  rw [later_unique hsuccs (List.mem_singleton_self start) h hover h' hover']

end Distinct

end Exhausts

theorem DepthFirst.exhausts {start : Nat} (h : g.DepthFirst [] [start] order) :
    g.Exhausts start order := by
  have hstart : start ∈ order :=
    (h.mem_of_mem_todo start (List.mem_singleton_self start)).resolve_left List.not_mem_nil
  refine ⟨?_, h.nodup.1, fun {v} ↦ ⟨?_, fun ⟨nodes, hwalk⟩ ↦ ?_⟩⟩
  · cases h with
    | skip hv => exact absurd hv List.not_mem_nil
    | visit => rfl
  · refine h.forall_mem (P := fun v ↦ ∃ nodes, g.Walk start nodes v)
      (fun x ⟨nodes, hx⟩ w hw ↦ ⟨_, hx.concat hw⟩) (fun x hx ↦ ?_) v
    rw [List.mem_singleton.mp hx]
    exact ⟨[start], .refl⟩
  · exact hwalk.closed (fun x hx w hw ↦
      (h.mem_of_mem_succs x hx w hw).resolve_left List.not_mem_nil) hstart

/-- An order of what a start reaches is the depth-first order exactly if it overtakes nothing. -/
theorem Exhausts.depthFirst_iff {start : Nat} (hsuccs : ∀ v, (g.succs v).Nodup)
    (h : g.Exhausts start order) :
    g.DepthFirst [] [start] order ↔ g.NothingOvertaken order := by
  refine ⟨DepthFirst.nothingOvertaken, fun hover ↦ ?_⟩
  obtain ⟨order', horder'⟩ : ∃ order', g.DepthFirst [] [start] order' :=
    exists_depthFirst (Nat.le_refl _)
  rwa [h.eq_of_nothingOvertaken hsuccs hover horder'.exhausts horder'.nothingOvertaken]

theorem exhausts_search {start : Nat} (hstart : start < g.size) :
    g.Exhausts start (g.search start) :=
  ⟨head?_search hstart, g.nodup_search start,
    mem_search_iff.trans (and_iff_right hstart)⟩

/-! ### Claiming ahead -/

/-- Traversing the nodes of `todo` in turn, when those of `claimed` have been claimed, visits
`order`: each node claims its unclaimed successors as soon as it is visited, and then these are
traversed. -/
inductive ClaimsAhead (g : Digraph) : List Nat → List Nat → List Nat → Prop
  | nil {claimed : List Nat} : ClaimsAhead g claimed [] []
  | visit {claimed fresh rest below order : List Nat} {v : Nat}
      (hfresh : fresh = (g.succs v).filter (· ∉ claimed))
      (hbelow : ClaimsAhead g (fresh ++ claimed) fresh below)
      (hrest : ClaimsAhead g (below ++ claimed) rest order) :
      ClaimsAhead g claimed (v :: rest) (v :: below ++ order)

theorem Frontier.push_of_mem {f : Frontier} (h : v ∈ f.marked) : f.push v = f :=
  if_pos h

theorem Frontier.stack_push_of_notMem {f : Frontier} (h : v ∉ f.marked) :
    (f.push v).stack = v :: f.stack :=
  congrArg Frontier.stack (if_neg h)

/-- Distinct nodes are pushed unless they are marked, and the first of them comes to lie on top. -/
theorem Frontier.stack_foldl_push_reverse {f : Frontier} {claimed nodes : List Nat}
    (hmarked : ∀ v, v ∈ f.marked ↔ v ∈ claimed) (hnodup : nodes.Nodup) :
    (nodes.reverse.foldl Frontier.push f).stack = nodes.filter (· ∉ claimed) ++ f.stack := by
  induction nodes with
  | nil => rfl
  | cons v rest ih =>
    obtain ⟨hv, hrest⟩ := List.nodup_cons.mp hnodup
    have hpush : v ∈ (rest.reverse.foldl Frontier.push f).marked ↔ v ∈ claimed := by
      rw [Frontier.mem_marked_foldl_push, List.mem_reverse, hmarked]
      exact or_iff_right hv
    rw [List.reverse_cons, List.foldl_append, List.foldl_cons, List.foldl_nil]
    by_cases hclaimed : v ∈ claimed
    · rw [Frontier.push_of_mem (hpush.mpr hclaimed), ih hrest,
        List.filter_cons_of_neg (by simpa using hclaimed)]
    · rw [Frontier.stack_push_of_notMem (mt hpush.mp hclaimed), ih hrest,
        List.filter_cons_of_pos (by simpa using hclaimed), List.cons_append]

/-- A search that has nodes waiting on top of others first traverses those on top. -/
theorem Drains.claimsAhead (hsuccs : ∀ v, (g.succs v).Nodup) {f : Frontier}
    {claimed rest : List Nat} (h : g.Drains f order) (hmarked : ∀ v, v ∈ f.marked ↔ v ∈ claimed)
    (htodo : todo ⊆ claimed) (hstack : f.stack = todo ++ rest) :
    ∃ first later f', order = first ++ later ∧ g.ClaimsAhead claimed todo first ∧ todo ⊆ first ∧
      f'.stack = rest ∧ (∀ v, v ∈ f'.marked ↔ v ∈ first ++ claimed) ∧ g.Drains f' later := by
  induction hlength : order.length using Nat.strong_induction_on
    generalizing f order claimed todo rest with
  | _ n ih =>
    cases todo with
    | nil => exact ⟨[], order, f, rfl, .nil, List.Subset.refl _, hstack, by simpa using hmarked, h⟩
    | cons v todo =>
      cases h with
      | done hempty => simp [hempty] at hstack
      | @next _ v' below order hstack' hnext =>
        obtain ⟨rfl, rfl⟩ : v = v' ∧ todo ++ rest = below := by simpa [hstack] using hstack'
        have hv : v ∈ claimed := htodo List.mem_cons_self
        have hmarked₀ : ∀ w,
            w ∈ ((g.succs v).reverse.foldl Frontier.push { f with stack := todo ++ rest }).marked ↔
              w ∈ (g.succs v).filter (· ∉ claimed) ++ claimed := fun w ↦ by
          rw [Frontier.mem_marked_foldl_push, hmarked]
          by_cases hw : w ∈ claimed <;> simp [hw]
        obtain ⟨below, later, f₁, rfl, hbelow, hfresh, hstack₁, hmarked₁, hdrains⟩ :=
          ih order.length (by rw [← hlength, List.length_cons]; omega) hnext hmarked₀
            (List.subset_append_left _ _)
            (Frontier.stack_foldl_push_reverse hmarked (hsuccs v)) rfl
        have hmarked₁' : ∀ w, w ∈ f₁.marked ↔ w ∈ below ++ claimed := fun w ↦ by
          have hw := @hfresh w
          rw [hmarked₁, List.mem_append, List.mem_append, List.mem_append]
          tauto
        obtain ⟨above, later, f₂, rfl, habove, hwaiting, hstack₂, hmarked₂, hdrains⟩ :=
          ih later.length (by rw [← hlength, List.length_cons, List.length_append]; omega) hdrains
            hmarked₁' (List.subset_append_of_subset_right _ fun w hw ↦
              htodo (List.mem_cons_of_mem v hw)) hstack₁ rfl
        refine ⟨v :: below ++ above, later, f₂, by simp, .visit rfl hbelow habove, ?_, hstack₂,
          fun w ↦ ?_, hdrains⟩
        · exact List.cons_subset_cons v (List.subset_append_of_subset_right _ hwaiting)
        · rw [hmarked₂]
          by_cases hw : w = v
          · simp [hw, hv]
          · simp [hw, or_left_comm]

theorem claimsAhead_search {start : Nat} (hsuccs : ∀ v, (g.succs v).Nodup)
    (hstart : start < g.size) : g.ClaimsAhead [start] [start] (g.search start) := by
  have hstack : (g.initialFrontier start).stack = [start] ++ [] := stack_initialFrontier hstart
  obtain ⟨first, later, f, horder, hclaims, -, hempty, -, hlater⟩ :=
    (g.drains_search start).claimsAhead hsuccs
      (fun v ↦ (mem_marked_initialFrontier hstart).trans List.mem_singleton.symm)
      (List.Subset.refl _) hstack
  cases hlater with
  | done => rwa [horder, List.append_nil]
  | next hnonempty => simp [hempty] at hnonempty

/-- From a block of a built graph the search visits the nodes of the recursive depth-first order,
but a node claims its successors as soon as it is visited. The two orders are the same exactly if
whatever comes between a node and a successor of it either follows a node visited in between or is
listed before that successor. -/
theorem search_claims_successors_ahead {draft : Draft} {flow : FlowGraph} {start : Nat}
    (hbuild : draft.build = .ok flow) (hstart : start < flow.blockCount) :
    let g := flow.toDigraph
    g.ClaimsAhead [start] [start] (g.search start) ∧
      (∃ order, g.DepthFirst [] [start] order ∧ order.Perm (g.search start)) ∧
      (g.DepthFirst [] [start] (g.search start) ↔ g.NothingOvertaken (g.search start)) := by
  intro g
  have hsuccs : ∀ v, (g.succs v).Nodup := fun v ↦ by
    rw [succs_toDigraph]
    exact Draft.nodup_succs_of_build hbuild v
  have hsize : start < g.size := by rwa [size_toDigraph]
  have hsearch := exhausts_search hsize
  refine ⟨claimsAhead_search hsuccs hsize, ?_, hsearch.depthFirst_iff hsuccs⟩
  obtain ⟨order, horder⟩ : ∃ order, g.DepthFirst [] [start] order :=
    exists_depthFirst (Nat.le_refl _)
  refine ⟨order, horder, (List.perm_ext_iff_of_nodup horder.exhausts.nodup hsearch.nodup).mpr
    fun v ↦ ?_⟩
  exact horder.exhausts.mem_iff.trans hsearch.mem_iff.symm

/-- Two ways that join and lead back to the entry. -/
def rejoining : Draft where
  blocks := #[#[], #[], #[], #[]]
  edges := #[(0, 1), (0, 2), (1, 3), (2, 3), (3, 0)]
  varNames := #[]
  stray := none
  edges_nodup := by decide
  varNames_nodup := List.nodup_nil

theorem search_claims_successors_ahead_rejoining :
    let g := rejoining.toFlowGraph.toDigraph
    rejoining.build = .ok rejoining.toFlowGraph ∧ 0 < rejoining.toFlowGraph.blockCount ∧
      g.search 0 = [0, 1, 3, 2] ∧ g.NothingOvertaken [0, 1, 3, 2] ∧
      g.ClaimsAhead [0] [0] [0, 1, 3, 2] ∧ g.DepthFirst [] [0] [0, 1, 3, 2] := by
  intro g
  have hbuild : rejoining.build = .ok rejoining.toFlowGraph := rfl
  have hstart : 0 < rejoining.toFlowGraph.blockCount := by decide
  have hsearch : g.search 0 = [0, 1, 3, 2] := by decide +kernel
  have hover : g.NothingOvertaken [0, 1, 3, 2] := by decide +kernel
  obtain ⟨hclaims, -, hiff⟩ := search_claims_successors_ahead hbuild hstart
  rw [hsearch] at hclaims hiff
  exact ⟨hbuild, hstart, hsearch, hover, hclaims, hiff.mpr hover⟩

/-- A block that can be entered from the entry and from the block that the entry leads to first. -/
def overtaking : Draft where
  blocks := #[#[], #[], #[], #[]]
  edges := #[(0, 1), (0, 2), (1, 2), (1, 3)]
  varNames := #[]
  stray := none
  edges_nodup := by decide
  varNames_nodup := List.nodup_nil

/-- The search is not depth-first: the entry claims the block that its first successor would go on
to, and a sibling overtakes it. -/
theorem search_not_depthFirst_overtaking :
    let g := overtaking.toFlowGraph.toDigraph
    overtaking.build = .ok overtaking.toFlowGraph ∧ g.search 0 = [0, 1, 3, 2] ∧
      g.DepthFirst [] [0] [0, 1, 2, 3] ∧ ¬g.DepthFirst [] [0] (g.search 0) := by
  intro g
  have hsearch : g.search 0 = [0, 1, 3, 2] := by decide +kernel
  -- both leaves come below the first successor, and nothing is left for the second
  have hsuccs : g.succs 0 = [1, 2] ∧ g.succs 1 = [2, 3] ∧ g.succs 2 = [] ∧ g.succs 3 = [] := by
    decide +kernel
  obtain ⟨hzero, hone, htwo, hthree⟩ := hsuccs
  have hleaf : ∀ {v : Nat} {seen : List Nat}, g.succs v = [] →
      g.DepthFirst seen (g.succs v) [] := fun hv ↦ by
    rw [hv]
    exact .nil
  have hleaves : g.DepthFirst [1, 0] (g.succs 1) [2, 3] := by
    rw [hone]
    exact .visit (by decide) (hleaf htwo) (.visit (by decide) (hleaf hthree) .nil)
  have hentry : g.DepthFirst [0] (g.succs 0) [1, 2, 3] := by
    rw [hzero]
    exact .visit (by decide) hleaves (.skip (by decide) .nil)
  have horder : g.DepthFirst [] [0] [0, 1, 2, 3] := .visit (by decide) hentry .nil
  refine ⟨rfl, hsearch, horder, fun h ↦ ?_⟩
  rw [hsearch] at h
  exact absurd (h.unique horder) (by decide)

end Digraph

end FlowFacts

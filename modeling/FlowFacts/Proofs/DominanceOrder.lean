import FlowFacts.Proofs.PathDominance

/-!
Dominance as an order. Walks can be joined, and cut where they pass a node for the first or for the
last time. So a node that does not dominate another is bypassed on the way there, and a walk on from
there cannot miss what dominates its end. Hence no two nodes that the entry reaches dominate each
other, and the dominators of such a node form a chain. The immediate dominator is the strict one
that all others dominate.
-/

set_option autoImplicit false
set_option relaxedAutoImplicit false

namespace FlowFacts

namespace Digraph

variable {g : Digraph} {a b u v w x : Nat} {nodes : List Nat}

/-! ### Joining and cutting walks -/

namespace Walk

theorem ne_nil (h : g.Walk u nodes v) : nodes ≠ [] :=
  List.ne_nil_of_mem h.source_mem

theorem getLast?_eq (h : g.Walk u nodes v) : nodes.getLast? = some v := by
  cases h with
  | refl => rfl
  | concat _ _ => exact List.getLast?_concat

theorem trans {more : List Nat} (h : g.Walk u nodes v) (hmore : g.Walk v more w) :
    g.Walk u (nodes ++ more.tail) w := by
  induction hmore with
  | refl => rwa [List.tail_cons, List.append_nil]
  | concat hmore hw ih =>
    rw [List.tail_append_of_ne_nil hmore.ne_nil, ← List.append_assoc]
    exact ih.concat hw

/-- The rest of a walk, from where it passes a node for the last time. -/
theorem last_of_mem (h : g.Walk u nodes v) (ha : a ∈ nodes) :
    ∃ rest, (a :: rest) <:+ nodes ∧ a ∉ rest ∧ g.Walk a (a :: rest) v := by
  induction h with
  | refl =>
    obtain rfl := List.mem_singleton.mp ha
    exact ⟨[], List.suffix_refl _, List.not_mem_nil, .refl⟩
  | @concat v w nodes h hw ih =>
    by_cases haw : a = w
    · subst haw
      exact ⟨[], List.suffix_append nodes [a], List.not_mem_nil, .refl⟩
    · have hmem : a ∈ nodes := by simpa [haw] using ha
      obtain ⟨rest, ⟨front, hfront⟩, hnot, hrest⟩ := ih hmem
      refine ⟨rest ++ [w], ⟨front, ?_⟩, by simp [hnot, haw], hrest.concat hw⟩
      rw [← hfront, List.append_assoc, List.cons_append]

/-- The part of a walk up to where it comes to a node for the first time. -/
theorem first_of_mem (h : g.Walk u nodes v) (ha : a ∈ nodes) :
    ∃ front, front ++ [a] <+: nodes ∧ a ∉ front ∧ g.Walk u (front ++ [a]) a := by
  induction h with
  | refl =>
    obtain rfl := List.mem_singleton.mp ha
    exact ⟨[], List.prefix_refl _, List.not_mem_nil, .refl⟩
  | @concat v w nodes h hw ih =>
    by_cases hmem : a ∈ nodes
    · obtain ⟨front, hfront, hnot, hwalk⟩ := ih hmem
      exact ⟨front, hfront.trans (List.prefix_append nodes [w]), hnot, hwalk⟩
    · obtain rfl : a = w := by simpa [hmem] using ha
      exact ⟨nodes, List.prefix_refl _, hmem, h.concat hw⟩

/-- A walk to another node takes a last step. -/
theorem last_step (h : g.Walk u nodes v) (hne : u ≠ v) :
    ∃ front p, nodes = front ++ [v] ∧ g.Walk u front p ∧ v ∈ g.succs p := by
  cases h with
  | refl => exact absurd rfl hne
  | concat hwalk hv => exact ⟨_, _, rfl, hwalk, hv⟩

end Walk

/-- Some walk stays clear of a node. -/
def Bypass (g : Digraph) (a u v : Nat) : Prop :=
  ∃ nodes, g.Walk u nodes v ∧ a ∉ nodes

theorem Bypass.trans (h : g.Bypass a u v) (hmore : g.Bypass a v w) : g.Bypass a u w := by
  obtain ⟨nodes, hwalk, hmiss⟩ := h
  obtain ⟨more, hwalk', hmiss'⟩ := hmore
  refine ⟨_, hwalk.trans hwalk', fun ha ↦ ?_⟩
  rcases List.mem_append.mp ha with ha | ha
  · exact hmiss ha
  · exact hmiss' (List.mem_of_mem_tail ha)

theorem bypass_refl (h : a ≠ u) : g.Bypass a u u :=
  ⟨[u], .refl, by simpa using h⟩

theorem bypass_of_mem_succs (hv : v ∈ g.succs u) (hu : a ≠ u) (hne : a ≠ v) : g.Bypass a u v :=
  ⟨[u] ++ [v], .concat .refl hv, by simp [hu, hne]⟩

theorem not_dominates_iff : ¬g.Dominates a b ↔ g.Bypass a g.entry b := by
  simp only [Dominates, Bypass, not_forall, exists_prop]

/-! ### The order -/

/-- A walk from a node that `a` does not dominate to one that it does passes `a`. -/
theorem Dominates.mem_of_walk (h : g.Dominates a x) (hb : ¬g.Dominates a b)
    (hwalk : g.Walk b nodes x) : a ∈ nodes := by
  by_contra hmiss
  have hbypass : g.Bypass a g.entry x := (not_dominates_iff.mp hb).trans ⟨nodes, hwalk, hmiss⟩
  exact not_dominates_iff.mpr hbypass h

theorem Dominates.refl (g : Digraph) (a : Nat) : g.Dominates a a :=
  fun _ hwalk ↦ hwalk.target_mem

theorem entry_dominates (g : Digraph) (v : Nat) : g.Dominates g.entry v :=
  fun _ hwalk ↦ hwalk.source_mem

theorem Dominates.trans (hab : g.Dominates a b) (hbx : g.Dominates b x) : g.Dominates a x := by
  intro nodes hwalk
  obtain ⟨front, hprefix, -, hfront⟩ := hwalk.first_of_mem (hbx nodes hwalk)
  exact hprefix.subset (hab _ hfront)

theorem Dominates.antisymm (hab : g.Dominates a b) (hba : g.Dominates b a)
    (hwalk : g.Walk g.entry nodes b) : a = b := by
  by_contra hne
  -- The first of the two on a walk would have the other before it.
  have hnone : ∀ {v nodes}, g.Walk g.entry nodes v → a ∉ nodes ∧ b ∉ nodes := by
    intro v nodes hwalk
    induction hwalk with
    | refl =>
      constructor
      · intro ha
        obtain rfl := List.mem_singleton.mp ha
        exact hne (List.mem_singleton.mp (hba _ .refl)).symm
      · intro hb
        obtain rfl := List.mem_singleton.mp hb
        exact hne (List.mem_singleton.mp (hab _ .refl))
    | concat hwalk hw ih =>
      simp only [List.mem_append, List.mem_singleton, ih.1, ih.2, false_or]
      constructor
      · rintro rfl
        have hb := hba _ (hwalk.concat hw)
        simp [ih.2, Ne.symm hne] at hb
      · rintro rfl
        have ha := hab _ (hwalk.concat hw)
        simp [ih.1, hne] at ha
  exact (hnone hwalk).2 hwalk.target_mem

/-- From the last dominator on, a walk to a node stays clear of all that it does not dominate. -/
theorem Dominates.bypass (h : g.Dominates a x) (hwalk : g.Walk g.entry nodes x)
    (hb : ¬g.Dominates a b) : g.Bypass b a x := by
  obtain ⟨rest, -, hlast, hrest⟩ := hwalk.last_of_mem (h nodes hwalk)
  refine ⟨a :: rest, hrest, fun hmem ↦ ?_⟩
  have hne : b ≠ a := by
    rintro rfl
    exact hb (.refl g b)
  obtain ⟨tail, hsuffix, -, htail⟩ := hrest.last_of_mem hmem
  have hinside : (b :: tail) <:+ rest :=
    (List.suffix_cons_iff.mp hsuffix).resolve_left fun heq ↦ hne (List.cons.inj heq).1
  exact hlast (hinside.subset (h.mem_of_walk hb htail))

/-- Two dominators of one node are comparable. -/
theorem Dominates.total (ha : g.Dominates a x) (hb : g.Dominates b x)
    (hwalk : g.Walk g.entry nodes x) : g.Dominates a b ∨ g.Dominates b a := by
  by_contra hneither
  obtain ⟨hab, hba⟩ := not_or.mp hneither
  have hbypass : g.Bypass b g.entry x := (not_dominates_iff.mp hba).trans (ha.bypass hwalk hab)
  exact not_dominates_iff.mpr hbypass hb

/-- A strict dominator that all other strict dominators dominate. -/
structure ClosestDominator (g : Digraph) (a x : Nat) : Prop where
  ne : a ≠ x
  dominates : g.Dominates a x
  dominated : ∀ b, b ≠ x → g.Dominates b x → g.Dominates b a

theorem ClosestDominator.unique (ha : g.ClosestDominator a x) (hb : g.ClosestDominator b x)
    (hwalk : ∃ nodes, g.Walk g.entry nodes x) : a = b := by
  obtain ⟨nodes, hwalk⟩ := hwalk
  obtain ⟨front, -, -, hfront⟩ := hwalk.first_of_mem (hb.dominates nodes hwalk)
  exact (hb.dominated a ha.ne ha.dominates).antisymm (ha.dominated b hb.ne hb.dominates) hfront

end Digraph

namespace Dominators

open FlowFacts.Digraph

variable {g : Digraph} {a b : Nat}

/-- Of a node that the entry reaches, the computed dominators are those of walks. -/
theorem dominates_iff (hg : g.Rooted) (hb : b < g.size)
    (hreach : (ofDigraph g).isReachable b = true) :
    (ofDigraph g).dominates a b = true ↔ g.Dominates a b := by
  obtain ⟨set, hset, hmem⟩ := exists_sets_getElem? hg hb
  have hdominates : a ∈ set ↔ g.Dominates a b :=
    hmem.trans ((settled_sets hg).mem_iff hg hb ((isReachable_iff hg).mp hreach))
  simp only [dominates, hset, hreach, Bool.true_and, Bool.or_eq_true, beq_iff_eq]
  constructor
  · rintro (rfl | ha)
    · exact .refl g a
    · exact hdominates.mp ha
  · exact fun h ↦ Or.inr (hdominates.mpr h)

/-- A dominator passes the test for the closest one if all strict dominators dominate it. -/
theorem isSubset_strict_iff (hg : g.Rooted) {v : Nat} (hv : v < g.size)
    (hwalk : ∃ nodes, g.Walk g.entry nodes v) (ha : g.Dominates a v) :
    ((((ofDigraph g).sets.getD v ∅).erase v).erase a).isSubset ((ofDigraph g).sets.getD a ∅) =
      true ↔ ∀ b, b ≠ v → g.Dominates b v → g.Dominates b a := by
  have hsettled := settled_sets hg
  obtain ⟨nodes, hnodes⟩ := hwalk
  have hmem := ha nodes hnodes
  have ha' : a < g.size := hnodes.lt_size hv a hmem
  obtain ⟨front, -, -, hfront⟩ := hnodes.first_of_mem hmem
  simp only [BitSet.isSubset_iff, BitSet.mem_erase, hsettled.mem_iff hg hv ⟨nodes, hnodes⟩,
    hsettled.mem_iff hg ha' ⟨_, hfront⟩]
  constructor
  · intro h b hbv hb
    by_cases hba : b = a
    · exact hba ▸ .refl g b
    · exact h b ⟨hba, hbv, hb⟩
  · rintro h b ⟨-, hbv, hb⟩
    exact h b hbv hb

theorem immediate?_eq_closest? {v : Nat} (hv : v < g.size) : (ofDigraph g).immediate? v =
    closest? g.entry (ofDigraph g).sets (ofDigraph g).reachable v := by
  have hsize : g.size ≠ 0 := Nat.ne_of_gt (Nat.zero_lt_of_lt hv)
  simp [immediate?, ofDigraph, hsize, hv]

/-- Of a node that the entry reaches, the immediate dominator is the closest one. -/
theorem immediate?_eq_some_iff (hg : g.Rooted) {v : Nat} (hv : v < g.size) (hne : v ≠ g.entry)
    (hwalk : ∃ nodes, g.Walk g.entry nodes v) :
    (ofDigraph g).immediate? v = some a ↔ g.ClosestDominator a v := by
  have hreach : (ofDigraph g).reachable.contains v = true := (isReachable_iff hg).mpr hwalk
  have hmem : ∀ {b}, b ∈ (((ofDigraph g).sets.getD v ∅).erase v).toList ↔
      b ≠ v ∧ g.Dominates b v := fun {b} ↦ by
    rw [BitSet.mem_toList, BitSet.mem_erase, (settled_sets hg).mem_iff hg hv hwalk]
  have hfind : (ofDigraph g).immediate? v =
      (((ofDigraph g).sets.getD v ∅).erase v).toList.find? fun d ↦
        ((((ofDigraph g).sets.getD v ∅).erase v).erase d).isSubset
          ((ofDigraph g).sets.getD d ∅) := by
    rw [immediate?_eq_closest? hv, closest?, hreach]
    simp [hne]
  have hfound : ∀ {d}, (ofDigraph g).immediate? v = some d → g.ClosestDominator d v := by
    intro d hd
    rw [hfind] at hd
    obtain ⟨hdv, hdom⟩ := hmem.mp (List.mem_of_find?_eq_some hd)
    have hpassed := List.find?_some hd
    exact ⟨hdv, hdom, (isSubset_strict_iff hg hv hwalk hdom).mp hpassed⟩
  refine ⟨hfound, fun ha ↦ ?_⟩
  have hsome : ((ofDigraph g).immediate? v).isSome = true := by
    rw [hfind, List.find?_isSome]
    exact ⟨a, hmem.mpr ⟨ha.ne, ha.dominates⟩,
      (isSubset_strict_iff hg hv hwalk ha.dominates).mpr ha.dominated⟩
  obtain ⟨d, hd⟩ := Option.isSome_iff_exists.mp hsome
  rw [hd, ha.unique (hfound hd) hwalk]

end Dominators

namespace Digraph

/-! ### Linked graphs -/

variable {g : Digraph} {u v w : Nat}

theorem preds_of_size_le (h : g.size ≤ v) : g.preds v = [] := by
  unfold preds
  rw [Array.getElem?_eq_none h]

namespace Linked

theorem lt_of_mem_succs (hg : g.Linked) (h : w ∈ g.succs v) : w < g.size := by
  by_contra hlt
  have hpred := hg.mem_preds_iff.mpr h
  rw [preds_of_size_le (Nat.not_lt.mp hlt)] at hpred
  cases hpred

theorem lt_of_walk (hg : g.Linked) {nodes : List Nat} (h : g.Walk g.entry nodes v) :
    v < g.size := by
  cases h with
  | refl => exact hg.entry_lt
  | concat _ hv => exact hg.lt_of_mem_succs hv

theorem isReachable_iff (hg : g.Linked) :
    (Dominators.ofDigraph g).isReachable v = true ↔ ∃ nodes, g.Walk g.entry nodes v :=
  Dominators.isReachable_iff hg.rooted

theorem dominates_iff (hg : g.Linked) {nodes : List Nat} (hwalk : g.Walk g.entry nodes v) :
    (Dominators.ofDigraph g).dominates u v = true ↔ g.Dominates u v :=
  Dominators.dominates_iff hg.rooted (hg.lt_of_walk hwalk) (hg.isReachable_iff.mpr ⟨nodes, hwalk⟩)

end Linked

end Digraph

end FlowFacts

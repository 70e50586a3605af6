import Mathlib.Data.Finset.Order
import Mathlib.Data.Finset.Range
import FlowFacts.Proofs.DominanceOrder

/-!
The tree of immediate dominators. The strict dominators of a node that the entry reaches are
comparable and all lie on one walk, so one of them is dominated by all others: every such node but
the entry has an immediate dominator. It lies on the way to the node, so the way to it is shorter,
and going up from one immediate dominator to the next ends at the entry. What is passed is each
dominator once. A node that the entry does not reach is alone.
-/

set_option autoImplicit false
set_option relaxedAutoImplicit false

namespace FlowFacts

namespace Digraph

variable {g : Digraph} {a v : Nat} {nodes : List Nat}

instance isTrans_dominates (g : Digraph) : IsTrans Nat g.Dominates :=
  ⟨fun _ _ _ ↦ Dominates.trans⟩

/-- A node other than the entry that the entry reaches has a closest dominator. -/
theorem exists_closestDominator (hwalk : g.Walk g.entry nodes v) (hne : v ≠ g.entry) :
    ∃ a, g.ClosestDominator a v := by
  classical
  let Strict := { a // a ≠ v ∧ g.Dominates a v }
  have : Nonempty Strict := ⟨⟨g.entry, Ne.symm hne, g.entry_dominates v⟩⟩
  have hdirected : Directed g.Dominates (Subtype.val : Strict → Nat) := by
    intro x y
    rcases x.2.2.total y.2.2 hwalk with hxy | hyx
    · exact ⟨y, hxy, .refl g y⟩
    · exact ⟨x, .refl g x, hyx⟩
  -- All strict dominators lie on the given walk, so they are finitely many.
  obtain ⟨z, hz⟩ := hdirected.finset_le (nodes.toFinset.subtype fun a ↦ a ≠ v ∧ g.Dominates a v)
  refine ⟨z, z.2.1, z.2.2, fun b hbv hb ↦ hz ⟨b, hbv, hb⟩ ?_⟩
  rw [Finset.mem_subtype, List.mem_toFinset]
  exact hb nodes hwalk

theorem dominates_entry_iff : g.Dominates a g.entry ↔ a = g.entry :=
  ⟨fun h ↦ List.mem_singleton.mp (h _ .refl), fun h ↦ h ▸ .refl g _⟩

/-- The dominators of a node are the node and those of its closest dominator. -/
theorem ClosestDominator.dominates_iff {p : Nat} (h : g.ClosestDominator p v) :
    g.Dominates a v ↔ a = v ∨ g.Dominates a p := by
  constructor
  · intro ha
    by_cases hav : a = v
    · exact Or.inl hav
    · exact Or.inr (h.dominated a hav ha)
  · rintro (rfl | ha)
    · exact .refl g a
    · exact ha.trans h.dominates

/-- The way to a strict dominator of a node is shorter. -/
theorem Dominates.exists_shorter_walk (h : g.Dominates a v) (hne : a ≠ v)
    (hwalk : g.Walk g.entry nodes v) :
    ∃ before, g.Walk g.entry before a ∧ before.length < nodes.length := by
  obtain ⟨front, hprefix, -, hfront⟩ := hwalk.first_of_mem (h nodes hwalk)
  refine ⟨_, hfront, Nat.lt_of_le_of_ne hprefix.length_le fun hlength ↦ hne ?_⟩
  have hlast := hwalk.getLast?_eq
  rw [← hprefix.eq_of_length hlength, hfront.getLast?_eq] at hlast
  exact Option.some.inj hlast

end Digraph

namespace Dominators

open FlowFacts.Digraph

/-! ### Going up -/

/-- The way up from a node, the node first: each next node is the immediate dominator of the one
before, and the last has none. -/
inductive Ascent (d : Dominators) : Nat → List Nat → Prop
  | top {v : Nat} (h : d.immediate? v = none) : Ascent d v [v]
  | up {v p : Nat} {rest : List Nat} (h : d.immediate? v = some p) (hrest : Ascent d p rest) :
      Ascent d v (v :: rest)

namespace Ascent

variable {d : Dominators} {v : Nat} {chain other : List Nat}

theorem unique (h : d.Ascent v chain) (hother : d.Ascent v other) : chain = other := by
  induction h generalizing other with
  | top hv =>
    cases hother with
    | top _ => rfl
    | up hv' _ => simp [hv] at hv'
  | up hv _ ih =>
    cases hother with
    | top hv' => simp [hv] at hv'
    | up hv' hrest =>
      obtain rfl := Option.some.inj (hv.symm.trans hv')
      rw [ih hrest]

/-- A climb with budget enough counts the whole way up. -/
theorem climb_add_one (h : d.Ascent v chain) {budget : Nat} (hbudget : chain.length ≤ budget + 1) :
    d.climb budget v + 1 = chain.length := by
  induction h generalizing budget with
  | top hv =>
    cases budget with
    | zero => rfl
    | succ budget => rw [climb, hv, List.length_singleton]
  | up hv hrest ih =>
    rw [List.length_cons] at hbudget
    cases budget with
    | zero => cases hrest <;> simp at hbudget
    | succ budget =>
      rw [climb, hv, List.length_cons]
      exact congrArg (· + 1) (ih (by omega))

end Ascent

variable {g : Digraph} {a v : Nat} {nodes chain : List Nat}

theorem immediate?_eq_none (hg : g.Linked)
    (h : v = g.entry ∨ ¬∃ nodes, g.Walk g.entry nodes v) : (ofDigraph g).immediate? v = none := by
  by_cases hv : v < g.size
  · have hunreached : v = g.entry ∨ (ofDigraph g).reachable.contains v = false := by
      refine h.imp_right fun hnone ↦ ?_
      rw [← Bool.not_eq_true]
      exact mt hg.isReachable_iff.mp hnone
    rw [immediate?_eq_closest? hv, closest?, if_pos]
    simpa using hunreached
  · have hsize : (ofDigraph g).immediate.size = g.size := by
      have hpos : g.size ≠ 0 := Nat.ne_of_gt (Nat.zero_lt_of_lt hg.entry_lt)
      simp [ofDigraph, hpos]
    rw [immediate?, Array.getElem?_eq_none (hsize ▸ Nat.not_lt.mp hv), Option.join_none]

theorem immediate?_eq_some_iff_closest (hg : g.Linked) :
    (ofDigraph g).immediate? v = some a ↔
      ((∃ nodes, g.Walk g.entry nodes v) ∧ v ≠ g.entry) ∧ g.ClosestDominator a v := by
  by_cases h : (∃ nodes, g.Walk g.entry nodes v) ∧ v ≠ g.entry
  · rw [and_iff_right h]
    obtain ⟨⟨nodes, hwalk⟩, hne⟩ := h
    exact immediate?_eq_some_iff hg.rooted (hg.lt_of_walk hwalk) hne ⟨nodes, hwalk⟩
  · have hnone : (ofDigraph g).immediate? v = none := by
      rw [not_and_or, not_not] at h
      exact immediate?_eq_none hg h.symm
    simp [hnone, h]

/-- Exactly the nodes other than the entry that the entry reaches have immediate dominators. -/
theorem exists_immediate?_iff (hg : g.Linked) :
    (∃ a, (ofDigraph g).immediate? v = some a) ↔
      (∃ nodes, g.Walk g.entry nodes v) ∧ v ≠ g.entry := by
  constructor
  · rintro ⟨a, ha⟩
    exact ((immediate?_eq_some_iff_closest hg).mp ha).1
  · intro h
    obtain ⟨⟨nodes, hwalk⟩, hne⟩ := h
    obtain ⟨a, ha⟩ := exists_closestDominator hwalk hne
    exact ⟨a, (immediate?_eq_some_iff_closest hg).mpr ⟨⟨⟨nodes, hwalk⟩, hne⟩, ha⟩⟩

/-- From a node that the entry reaches, the way up passes each dominator once and ends at the
entry. -/
theorem exists_ascent_of_walk (hg : g.Linked) (hwalk : g.Walk g.entry nodes v) :
    ∃ chain, (ofDigraph g).Ascent v chain ∧ chain.getLast? = some g.entry ∧ chain.Nodup ∧
      ∀ a, a ∈ chain ↔ g.Dominates a v := by
  -- The way to the immediate dominator is shorter.
  induction hlength : nodes.length using Nat.strong_induction_on generalizing v nodes with
  | _ n ih =>
    subst hlength
    by_cases hne : v = g.entry
    · subst hne
      refine ⟨[g.entry], .top (immediate?_eq_none hg (Or.inl rfl)), rfl,
        List.nodup_singleton _, fun a ↦ ?_⟩
      rw [List.mem_singleton, dominates_entry_iff]
    · obtain ⟨p, hp⟩ := (exists_immediate?_iff hg).mpr ⟨⟨nodes, hwalk⟩, hne⟩
      have hclosest := ((immediate?_eq_some_iff_closest hg).mp hp).2
      obtain ⟨before, hbefore, hshorter⟩ :=
        hclosest.dominates.exists_shorter_walk hclosest.ne hwalk
      obtain ⟨rest, hrest, hlast, hnodup, hmem⟩ := ih _ hshorter hbefore rfl
      refine ⟨v :: rest, .up hp hrest, ?_, List.nodup_cons.mpr ⟨fun hv ↦ ?_, hnodup⟩, fun a ↦ ?_⟩
      · rw [List.getLast?_cons, hlast]
        rfl
      · exact hclosest.ne (hclosest.dominates.antisymm ((hmem v).mp hv) hwalk)
      · rw [List.mem_cons, hmem, hclosest.dominates_iff]

/-- From every node, known or not, the way up ends, and the depth is its number of steps. -/
theorem exists_ascent (hg : g.Linked) (v : Nat) :
    ∃ chain, (ofDigraph g).Ascent v chain ∧ (ofDigraph g).depth v + 1 = chain.length := by
  have hsize : (ofDigraph g).size = g.size := (settled_sets hg.rooted).size_eq
  by_cases hreach : ∃ nodes, g.Walk g.entry nodes v
  · obtain ⟨nodes, hwalk⟩ := hreach
    obtain ⟨chain, hchain, -, hnodup, hmem⟩ := exists_ascent_of_walk hg hwalk
    have hlt : ∀ a ∈ chain, a ∈ List.range g.size := fun a ha ↦
      List.mem_range.mpr (hwalk.lt_size (hg.lt_of_walk hwalk) a ((hmem a).mp ha nodes hwalk))
    have hlength : chain.length ≤ g.size := by
      simpa using (hnodup.subperm hlt).length_le
    refine ⟨chain, hchain, hchain.climb_add_one ?_⟩
    omega
  · have htop := Ascent.top (immediate?_eq_none hg (Or.inr hreach))
    exact ⟨[v], htop, htop.climb_add_one (by simp)⟩

/-- Of a node that the entry reaches, the queries tell the closest dominator. -/
theorem closestDominator_iff (hg : g.Linked) (hwalk : g.Walk g.entry nodes v) :
    g.ClosestDominator a v ↔ (ofDigraph g).strictlyDominates a v = true ∧
      ∀ b, (ofDigraph g).strictlyDominates b v = true → (ofDigraph g).dominates b a = true := by
  have hstrict : ∀ {b}, (ofDigraph g).strictlyDominates b v = true ↔ b ≠ v ∧ g.Dominates b v := by
    intro b
    rw [strictlyDominates, Bool.and_eq_true, bne_iff_ne, hg.dominates_iff hwalk]
  have hreached : g.Dominates a v →
      ∀ {b}, (ofDigraph g).dominates b a = true ↔ g.Dominates b a := by
    intro ha b
    obtain ⟨front, -, -, hfront⟩ := hwalk.first_of_mem (ha nodes hwalk)
    exact hg.dominates_iff hfront
  constructor
  · intro h
    refine ⟨hstrict.mpr ⟨h.ne, h.dominates⟩, fun b hb ↦ (hreached h.dominates).mpr ?_⟩
    obtain ⟨hne, hdom⟩ := hstrict.mp hb
    exact h.dominated b hne hdom
  · rintro ⟨ha, hall⟩
    obtain ⟨hne, hdom⟩ := hstrict.mp ha
    exact ⟨hne, hdom, fun b hbv hb ↦ (hreached hdom).mp (hall b (hstrict.mpr ⟨hbv, hb⟩))⟩

theorem nodup_dominatorsOf (d : Dominators) (v : Nat) : (d.dominatorsOf v).Nodup := by
  unfold dominatorsOf
  split
  · exact List.nodup_nil
  · next set _ =>
    split_ifs
    · exact set.pairwise_toList.imp Nat.ne_of_lt
    · exact List.nodup_singleton v

theorem mem_dominatorsOf (hg : g.Linked) (hwalk : g.Walk g.entry nodes v) :
    a ∈ (ofDigraph g).dominatorsOf v ↔ g.Dominates a v := by
  obtain ⟨set, hset, hmem⟩ := exists_sets_getElem? hg.rooted (hg.lt_of_walk hwalk)
  rw [dominatorsOf, hset]
  simp only [hg.isReachable_iff.mpr ⟨nodes, hwalk⟩, if_true]
  rw [BitSet.mem_toList, hmem, (settled_sets hg.rooted).mem_iff hg.rooted (hg.lt_of_walk hwalk)
    ⟨nodes, hwalk⟩]

theorem mem_children {c : Nat} {d : Dominators} : c ∈ d.children a ↔ d.immediate? c = some a := by
  rw [children, List.mem_filter, List.mem_range, beq_iff_eq, and_iff_right_iff_imp]
  intro h
  by_contra hlt
  rw [immediate?, Array.getElem?_eq_none (Nat.not_lt.mp hlt)] at h
  cases h

variable {flow : FlowGraph} {draft : Draft}

/-- On a built graph with blocks, a block has an immediate dominator exactly if the entry reaches it
and is another block. This is the one block that strictly dominates it and that all its strict
dominators dominate. -/
theorem immediate_closest_unique (hbuild : draft.build = .ok flow) (hblocks : flow.isEmpty = false)
    (n : Nat) :
    let d := ofDigraph flow.toDigraph
    ((∃ a, d.immediate? n = some a) ↔
      (∃ nodes, flow.toDigraph.Walk flow.entry nodes n) ∧ n ≠ flow.entry) ∧
    ∀ a, d.immediate? n = some a →
      d.strictlyDominates a n = true ∧
      (∀ b, d.strictlyDominates b n = true → d.dominates b a = true) ∧
      ∀ a', d.strictlyDominates a' n = true →
        (∀ b, d.strictlyDominates b n = true → d.dominates b a' = true) → a' = a := by
  have hg := linked_toDigraph (draft.wellFormed_of_build hbuild) hblocks
  refine ⟨exists_immediate?_iff hg, fun a ha ↦ ?_⟩
  obtain ⟨⟨⟨nodes, hwalk⟩, -⟩, hclosest⟩ := (immediate?_eq_some_iff_closest hg).mp ha
  obtain ⟨hstrict, hall⟩ := (closestDominator_iff hg hwalk).mp hclosest
  refine ⟨hstrict, hall, fun a' hstrict' hall' ↦ ?_⟩
  have hclosest' := (closestDominator_iff hg hwalk).mpr ⟨hstrict', hall'⟩
  exact hclosest'.unique hclosest ⟨nodes, hwalk⟩

/-- Two ways through a loop that join again, where an unreachable block comes in too. -/
def joining : Draft where
  blocks := #[#[], #[], #[], #[], #[], #[]]
  edges := #[(0, 1), (1, 2), (1, 3), (2, 4), (3, 4), (4, 1), (5, 4)]
  varNames := #[]
  stray := none
  edges_nodup := by decide
  varNames_nodup := List.nodup_nil

/-- Where the ways join, the block at which they part is closer than the entry. -/
theorem immediate_closest_unique_joining :
    let g := joining.toFlowGraph.toDigraph
    let d := ofDigraph g
    joining.build = .ok joining.toFlowGraph ∧ joining.toFlowGraph.isEmpty = false ∧
      d.immediate? 4 = some 1 ∧ (∃ nodes, g.Walk 0 nodes 4) ∧ d.strictlyDominates 0 4 = true ∧
      (∀ b, d.strictlyDominates b 4 = true → d.dominates b 1 = true) ∧
      (¬∀ b, d.strictlyDominates b 4 = true → d.dominates b 0 = true) ∧
      d.immediate? 5 = none ∧ ¬∃ nodes, g.Walk 0 nodes 5 := by
  intro g d
  have hbuild : joining.build = .ok joining.toFlowGraph := rfl
  have hblocks : joining.toFlowGraph.isEmpty = false := rfl
  obtain ⟨hreached, hclosest⟩ := immediate_closest_unique hbuild hblocks 4
  have hfour : d.immediate? 4 = some 1 := by decide +kernel
  have hentry : d.strictlyDominates 0 4 = true := by decide +kernel
  obtain ⟨-, hall, honly⟩ := hclosest 1 hfour
  have hfive : d.immediate? 5 = none := by decide +kernel
  refine ⟨hbuild, hblocks, hfour, (hreached.mp ⟨1, hfour⟩).1, hentry, hall,
    fun hall' ↦ absurd (honly 0 hentry hall') (by decide), hfive, fun hwalk ↦ ?_⟩
  obtain ⟨a, ha⟩ := (immediate_closest_unique hbuild hblocks 5).1.mpr ⟨hwalk, by decide⟩
  exact absurd (hfive.symm.trans ha) (by simp)

/-- On a built graph, the way up along immediate dominators ends from every node, known or not, and
the depth counts its steps. From a block that the entry reaches it ends at the entry and lists the
dominators of the block, each once. Children are those with the node as immediate dominator. -/
theorem immediate_dominators_tree (hbuild : draft.build = .ok flow) :
    let d := ofDigraph flow.toDigraph
    (∀ v, ∃ chain, d.Ascent v chain ∧ d.depth v + 1 = chain.length) ∧
    (∀ b chain, d.isReachable b = true → d.Ascent b chain →
      chain.getLast? = some flow.entry ∧ chain.Perm (d.dominatorsOf b) ∧
      (∀ a, d.dominates a b = true ↔ a ∈ chain) ∧
      d.depth b = (d.dominatorsOf b).length - 1) ∧
    ∀ a c, c ∈ d.children a ↔ d.immediate? c = some a := by
  intro d
  cases hempty : flow.isEmpty with
  | true =>
    have hsize : flow.toDigraph.size = 0 := by
      simpa [FlowGraph.isEmpty, FlowGraph.blockCount] using hempty
    have hd : d = { entry := 0, sets := #[], reachable := ∅, immediate := #[], rounds := 0 } :=
      if_pos hsize
    refine ⟨fun v ↦ ?_, fun b chain hreach _ ↦ ?_, fun a c ↦ mem_children⟩
    · have htop : d.Ascent v [v] := .top (by simp [hd, immediate?])
      exact ⟨[v], htop, htop.climb_add_one (by simp)⟩
    · rw [hd] at hreach
      exact absurd hreach (BitSet.notMem_empty b)
  | false =>
    have hg := linked_toDigraph (draft.wellFormed_of_build hbuild) hempty
    refine ⟨exists_ascent hg, fun b chain hreach hchain ↦ ?_, fun a c ↦ mem_children⟩
    obtain ⟨nodes, hwalk⟩ := hg.isReachable_iff.mp hreach
    obtain ⟨chain', hchain', hlast, hnodup, hmem⟩ := exists_ascent_of_walk hg hwalk
    obtain rfl := hchain.unique hchain'
    have hperm : chain.Perm (d.dominatorsOf b) :=
      (List.perm_ext_iff_of_nodup hnodup (nodup_dominatorsOf d b)).mpr fun a ↦
        (hmem a).trans (mem_dominatorsOf hg hwalk).symm
    obtain ⟨same, hsame, hdepth⟩ := exists_ascent hg b
    obtain rfl := hchain.unique hsame
    refine ⟨hlast, hperm, fun a ↦ (hg.dominates_iff hwalk).trans (hmem a).symm, ?_⟩
    rw [← hperm.length_eq, ← hdepth]
    rfl

theorem immediate_dominators_tree_joining :
    let d := ofDigraph joining.toFlowGraph.toDigraph
    joining.build = .ok joining.toFlowGraph ∧ d.isReachable 4 = true ∧ d.Ascent 4 [4, 1, 0] ∧
      [4, 1, 0].Perm (d.dominatorsOf 4) ∧ d.depth 4 = 2 ∧ (d.dominatorsOf 4).length - 1 = 2 ∧
      (∀ a, d.dominates a 4 = true ↔ a ∈ [4, 1, 0]) ∧ d.children 1 = [2, 3, 4] ∧
      d.immediate? 2 = some 1 ∧ (∃ chain, d.Ascent 5 chain) ∧ ∃ chain, d.Ascent 9 chain := by
  intro d
  have hbuild : joining.build = .ok joining.toFlowGraph := rfl
  obtain ⟨hends, hchain, hchildren⟩ := immediate_dominators_tree hbuild
  have hreach : d.isReachable 4 = true := by decide +kernel
  have hascent : d.Ascent 4 [4, 1, 0] :=
    .up (by decide +kernel) (.up (by decide +kernel) (.top (by decide +kernel)))
  have hone : d.children 1 = [2, 3, 4] := by decide +kernel
  obtain ⟨-, hperm, hdominates, hdepth⟩ := hchain 4 _ hreach hascent
  have hlength : (d.dominatorsOf 4).length - 1 = 2 := by
    rw [← hperm.length_eq]
    rfl
  obtain ⟨unreached, hunreached, -⟩ := hends 5
  obtain ⟨unknown, hunknown, -⟩ := hends 9
  exact ⟨hbuild, hreach, hascent, hperm, hdepth.trans hlength, hlength, hdominates, hone,
    (hchildren 1 2).mp (by rw [hone]; decide), ⟨unreached, hunreached⟩, unknown, hunknown⟩

end Dominators

end FlowFacts

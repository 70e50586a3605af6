import FlowFacts.Proofs.NaturalLoops

/-!
Loop bodies are disjoint or nested. The headers of two loops with a common node both dominate it, so
one of them dominates the other. From the dominated header, a walk to the common node stays clear of
the other one, which puts it into the other loop; and what leads back to it around its own loop
stays clear of the other header as well, so its whole body follows. No assumption is made about how
cycles are entered.
-/

set_option autoImplicit false
set_option relaxedAutoImplicit false

namespace FlowFacts

namespace Loop

/-- The body of one loop is part of the body of another. The other header is not in it, so it is a
strict part, and that header strictly dominates the inner one. -/
structure Inside (inner outer : Loop) (d : Dominators) : Prop where
  mem_of_mem : ∀ b ∈ inner.body, b ∈ outer.body
  header_mem : outer.header ∈ outer.body
  header_notMem : outer.header ∉ inner.body
  strictlyDominates : d.strictlyDominates outer.header inner.header = true

namespace Natural

variable {g : Digraph} {inner outer : Loop} {x : Nat}

/-- A loop that shares a node with another, whose header it does not dominate, has its header in the
other. -/
theorem header_mem_of_common (hin : inner.Natural g) (hout : outer.Natural g)
    (hnot : ¬g.Dominates inner.header outer.header) (hx : x ∈ inner.body) (hx' : x ∈ outer.body) :
    inner.header ∈ outer.body := by
  obtain ⟨nodes, hwalk⟩ := hin.exists_walk hx
  have hdom := hin.header_dominates hx
  have hfrom : g.Bypass outer.header inner.header x := hdom.bypass hwalk hnot
  have hne : x ≠ outer.header := fun heq ↦ hnot (heq ▸ hdom)
  obtain ⟨-, s, hs, hto⟩ := (hout.mem_body_iff.mp hx').resolve_left hne
  exact hout.mem_body_iff.mpr (Or.inr ⟨hin.exists_walk_header, s, hs, hfrom.trans hto⟩)

/-- A loop with its header in another, whose header it does not dominate, is part of the other. -/
theorem mem_of_header_mem (hin : inner.Natural g) (hout : outer.Natural g)
    (hnot : ¬g.Dominates inner.header outer.header) (hheader : inner.header ∈ outer.body) :
    ∀ b ∈ inner.body, b ∈ outer.body := by
  intro b hb
  rcases hin.mem_body_iff.mp hb with rfl | ⟨hreach, s, hs, nodes, hwalk, hmiss⟩
  · exact hheader
  · obtain ⟨hedge, -, hdom⟩ := hin.mem_latches_iff.mp hs
    have hne : inner.header ≠ outer.header := fun heq ↦
      hnot (heq ▸ fun _ hto ↦ hto.target_mem)
    -- From the outer header the walk could not come to the latch without the inner one.
    have hfree : outer.header ∉ nodes := fun hmem ↦ by
      obtain ⟨rest, hsuffix, -, hrest⟩ := hwalk.last_of_mem hmem
      exact hmiss (hsuffix.subset (hdom.mem_of_walk hnot hrest))
    have hback : g.Bypass outer.header b inner.header :=
      ⟨_, hwalk.concat hedge, by simp [hfree, Ne.symm hne]⟩
    obtain ⟨-, t, ht, hto⟩ := (hout.mem_body_iff.mp hheader).resolve_left hne
    exact hout.mem_body_iff.mpr (Or.inr ⟨hreach, t, ht, hback.trans hto⟩)

/-- Of two loops with a common node and different headers, the one with the dominated header is
inside the other. -/
theorem inside_of_common (hg : g.Linked) (hin : inner.Natural g) (hout : outer.Natural g)
    (hne : inner.header ≠ outer.header) (hdom : g.Dominates outer.header inner.header)
    (hx : x ∈ inner.body) (hx' : x ∈ outer.body) :
    inner.Inside outer (Dominators.ofDigraph g) := by
  obtain ⟨before, hbefore⟩ := hout.exists_walk_header
  have hnot : ¬g.Dominates inner.header outer.header := fun h ↦ hne (h.antisymm hdom hbefore)
  have hheader := hin.header_mem_of_common hout hnot hx hx'
  obtain ⟨nodes, hwalk⟩ := hin.exists_walk_header
  refine ⟨hin.mem_of_header_mem hout hnot hheader, hout.mem_body_iff.mpr (Or.inl rfl),
    fun hmem ↦ hnot (hin.header_dominates hmem), ?_⟩
  rw [Dominators.strictlyDominates, Bool.and_eq_true, bne_iff_ne]
  exact ⟨Ne.symm hne, (hg.dominates_iff hwalk).mpr hdom⟩

theorem disjoint_or_inside (hg : g.Linked) (hin : inner.Natural g) (hout : outer.Natural g)
    (hne : inner.header ≠ outer.header) :
    (∀ b ∈ inner.body, b ∉ outer.body) ∨ inner.Inside outer (Dominators.ofDigraph g) ∨
      outer.Inside inner (Dominators.ofDigraph g) := by
  by_cases hcommon : ∃ x, x ∈ inner.body ∧ x ∈ outer.body
  · obtain ⟨x, hx, hx'⟩ := hcommon
    obtain ⟨nodes, hwalk⟩ := hin.exists_walk hx
    rcases (hout.header_dominates hx').total (hin.header_dominates hx) hwalk with hdom | hdom
    · exact Or.inr (Or.inl (hin.inside_of_common hg hout hne hdom hx hx'))
    · exact Or.inr (Or.inr (hout.inside_of_common hg hin (Ne.symm hne) hdom hx' hx))
  · exact Or.inl fun b hb hb' ↦ hcommon ⟨b, hb, hb'⟩

end Natural

end Loop

namespace LoopNest

/-- On a built graph, two loops with different headers have disjoint bodies, or one of them is
inside the other. -/
theorem bodies_laminar {draft : Draft} {g : FlowGraph} (hbuild : draft.build = .ok g) {l l' : Loop}
    (hl : l ∈ g.loops.loops) (hl' : l' ∈ g.loops.loops) (hne : l.header ≠ l'.header) :
    (∀ b ∈ l.body, b ∉ l'.body) ∨ l.Inside l' g.loops.dominators ∨
      l'.Inside l g.loops.dominators := by
  have hg := linked_of_mem_loops (draft.wellFormed_of_build hbuild) hl
  exact (natural_of_mem hg hl).disjoint_or_inside hg (natural_of_mem hg hl') hne

/-- The two loops of the nested ones share a block, and the outer header is not in the inner. -/
theorem bodies_laminar_nestedLoops :
    let g := nestedLoops.toFlowGraph
    ∃ l ∈ g.loops.loops, ∃ l' ∈ g.loops.loops, l.header = 1 ∧ l'.header = 2 ∧
      l.body.toList = [1, 2, 3] ∧ l'.body.toList = [2, 3] ∧ l'.Inside l g.loops.dominators := by
  intro g
  have hloops : (g.loops.loops.map fun l ↦ (l.header, l.body.toList)) =
      [(1, [1, 2, 3]), (2, [2, 3])] := by
    decide +kernel
  have hfind : ∀ e ∈ [(1, [1, 2, 3]), (2, [2, 3])],
      ∃ l ∈ g.loops.loops, (l.header, l.body.toList) = e := fun e he ↦ by
    rw [← hloops] at he
    exact List.mem_map.mp he
  obtain ⟨l, hl, heq⟩ := hfind (1, [1, 2, 3]) (by decide)
  obtain ⟨l', hl', heq'⟩ := hfind (2, [2, 3]) (by decide)
  obtain ⟨hheader, hbody⟩ := Prod.mk.inj heq
  obtain ⟨hheader', hbody'⟩ := Prod.mk.inj heq'
  have hmem : ∀ b, b ∈ l.body ↔ b ∈ [1, 2, 3] := fun b ↦ hbody ▸ BitSet.mem_toList.symm
  have hmem' : ∀ b, b ∈ l'.body ↔ b ∈ [2, 3] := fun b ↦ hbody' ▸ BitSet.mem_toList.symm
  have hne : l.header ≠ l'.header := by
    rw [hheader, hheader']
    decide
  have hbuild : nestedLoops.build = .ok g := rfl
  refine ⟨l, hl, l', hl', hheader, hheader', hbody, hbody', ?_⟩
  rcases bodies_laminar hbuild hl hl' hne with hdisjoint | hinside | hinside
  · exact absurd ((hmem' 3).mpr (by decide)) (hdisjoint 3 ((hmem 3).mpr (by decide)))
  · have hone := (hmem' 1).mp (hinside.mem_of_mem 1 ((hmem 1).mpr (by decide)))
    exact absurd hone (by decide)
  · exact hinside

end LoopNest

end FlowFacts

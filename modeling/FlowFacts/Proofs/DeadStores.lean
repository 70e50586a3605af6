import FlowFacts.Proofs.LiveVariables
import FlowFacts.Proofs.ReachingDefinitions

/-!
Reaching definitions and live variables agree on dead stores. A path along which a definition
reaches a reading instruction may execute the assignment again, but no other assignment to its
variable; cut after the last time, it shows that the variable is live. A path that shows a variable
live writes it nowhere, so it ends a definition of it at a call only, and only if the definition was
made in the entry block.
-/

set_option autoImplicit false
set_option relaxedAutoImplicit false

namespace FlowFacts

variable {g : FlowGraph}

/-- A step that executes an instruction goes from before it to after it. -/
theorem Step.of_some {p q : Point} {i : Instr} (hstep : Step g p (some i) q) :
    i ∈ g.instrs ∧ p = .before i.id ∧ q = .after i.id := by
  cases hstep with
  | execute hi => exact ⟨hi, rfl, rfl⟩

namespace Path

variable {p q : Point} {executed : List Instr}

theorem mem_instrs (hpath : Path g p executed q) : ∀ j ∈ executed, j ∈ g.instrs := by
  induction hpath with
  | refl => simp
  | cons hstep _ ih =>
    refine List.forall_mem_append.mpr ⟨fun j hj ↦ ?_, ih⟩
    obtain rfl := Option.mem_toList.mp hj
    exact hstep.of_some.1

/-- A path that writes a variable by one instruction only, cut after the last time it does so. -/
theorem cut_after_writes {v k : Nat} (hpath : Path g p executed q)
    (honly : ∀ j ∈ executed, j.target? = some v → j.id = k) :
    ∃ start rest, (start = p ∨ start = .after k) ∧ Path g start rest q ∧
      ∀ j ∈ rest, j.target? ≠ some v := by
  induction hpath with
  | refl p => exact ⟨p, [], Or.inl rfl, .refl p, by simp⟩
  | @cons p middle q first rest hstep _ ih =>
    obtain ⟨hfirst, hrest⟩ := List.forall_mem_append.mp honly
    obtain ⟨start, kept, rfl | rfl, hkept, hfree⟩ := ih hrest
    · by_cases hwrites : ∃ j ∈ first.toList, j.target? = some v
      · obtain ⟨j, hj, hwrites⟩ := hwrites
        have hid : j.id = k := hfirst j hj hwrites
        obtain rfl := Option.mem_toList.mp hj
        exact ⟨start, kept, Or.inr (hstep.of_some.2.2.trans (congrArg _ hid)), hkept, hfree⟩
      · refine ⟨p, first.toList ++ kept, Or.inl rfl, .cons hstep hkept, ?_⟩
        exact List.forall_mem_append.mpr ⟨fun j hj hj' ↦ hwrites ⟨j, hj, hj'⟩, hfree⟩
    · exact ⟨_, kept, Or.inr rfl, hkept, hfree⟩

end Path

/-- What is live after an instruction is read at the end of a path that does not write it. -/
theorem Liveness.mem_liveAfter_iff_path {c : Config} {r : Results BitSet} (hg : g.WellFormed)
    (hr : (analysis g).solve c g = .ok r) (k v : Nat) :
    v ∈ liveAfter r k ↔ ∃ i ∈ g.instrs, v ∈ i.reads ∧
      ∃ executed, Path g (.after k) executed (.before i.id) ∧
        ∀ j ∈ executed, j.target? ≠ some v := by
  simp only [Instr.mem_reads_iff]
  exact ((genKill_analysis g).mem_at_iff hg hr v (.after k)).trans carried_backward_iff

namespace DefTable

variable {c c' : Config} {r r' : Results BitSet} {d : Definition} {a : Instr}

theorem mem_reachingAt {t : DefTable} {i v : Nat} :
    d ∈ t.reachingAt r i v ↔ d.var = v ∧ ∃ n, t.defs[n]? = some d ∧ n ∈ r.at (.before i) := by
  simp only [reachingAt, List.mem_filter, mem_resolve, beq_iff_eq, and_comm]
  rfl

/-- The definitions that reach an instruction come to it along paths that do not end them. -/
theorem mem_reachingAt_iff_path (hg : g.WellFormed)
    (hr : (ofGraph g).analysis.solve c g = .ok r) (hmade : d.MadeBy g a) (i : Nat) :
    d ∈ (ofGraph g).reachingAt r i d.var ↔
      ∃ executed, Path g (.after a.id) executed (.before i) ∧ ∀ j ∈ executed, ¬d.KilledBy j := by
  rw [mem_reachingAt, and_iff_right rfl]
  constructor
  · rintro ⟨n, hd, hn⟩
    simp only [mem_at_iff hg hr, mem_gen_iff hg hd, mem_kill_iff hg hd] at hn
    obtain ⟨a', -, hinstr, hpath⟩ := hn
    rw [hmade.instr, Option.some_inj] at hinstr
    rwa [hinstr]
  · intro hpath
    obtain ⟨n, hd⟩ := Array.mem_iff_getElem?.mp (mem_defs_ofGraph.mpr ⟨a, hmade⟩)
    refine ⟨n, hd, ?_⟩
    simp only [mem_at_iff hg hr, mem_gen_iff hg hd, mem_kill_iff hg hd]
    exact ⟨a, hmade.mem_instrs, hmade.instr, hpath⟩

/-- On a built graph, a variable is live after an assignment to it if the definition made there
reaches an instruction that reads the variable. If it is live there, the definition reaches such an
instruction, unless it was made in the entry block of a graph with a call. -/
theorem reaches_read_iff_live {draft : Draft} (hbuild : draft.build = .ok g)
    (hr : (ofGraph g).analysis.solve c g = .ok r)
    (hr' : (Liveness.analysis g).solve c' g = .ok r') (hd : d ∈ (ofGraph g).defs) :
    ∃ k, d.instr = some k ∧
      (∀ i ∈ g.instrs, d.var ∈ i.reads → d ∈ (ofGraph g).reachingAt r i.id d.var →
        d.var ∈ Liveness.liveAfter r' k) ∧
      (d.var ∈ Liveness.liveAfter r' k → (d.block ≠ 0 ∨ ∀ i ∈ g.instrs, i.isCall = false) →
        ∃ i ∈ g.instrs, d.var ∈ i.reads ∧ d ∈ (ofGraph g).reachingAt r i.id d.var) := by
  have hg := draft.wellFormed_of_build hbuild
  obtain ⟨a, hmade⟩ := mem_defs_ofGraph.mp hd
  refine ⟨a.id, hmade.instr, fun i hi hreads hreach ↦ ?_, fun hlive hcalls ↦ ?_⟩
  · obtain ⟨executed, hpath, hkept⟩ := (mem_reachingAt_iff_path hg hr hmade i.id).mp hreach
    have honly : ∀ j ∈ executed, j.target? = some d.var → j.id = a.id := by
      intro j hj hwrites
      by_contra hother
      refine hkept j hj (Or.inl ⟨hwrites, fun hinstr ↦ hother ?_⟩)
      exact (Option.some.inj (hmade.instr.symm.trans hinstr)).symm
    obtain ⟨start, rest, hstart, hrest, hfree⟩ := hpath.cut_after_writes honly
    obtain rfl : start = .after a.id := hstart.elim id id
    exact (Liveness.mem_liveAfter_iff_path hg hr' a.id d.var).mpr
      ⟨i, hi, hreads, rest, hrest, hfree⟩
  · obtain ⟨i, hi, hreads, executed, hpath, hfree⟩ :=
      (Liveness.mem_liveAfter_iff_path hg hr' a.id d.var).mp hlive
    refine ⟨i, hi, hreads, (mem_reachingAt_iff_path hg hr hmade i.id).mpr
      ⟨executed, hpath, fun j hj hkilled ↦ ?_⟩⟩
    rcases hkilled with ⟨hwrites, -⟩ | ⟨hcall, hentry⟩
    · exact hfree j hj hwrites
    · rcases hcalls with hblock | hnone
      · exact hblock hentry
      · simp [hnone j (hpath.mem_instrs j hj)] at hcall

/-- The assignment in the self loop reaches its own read, past a call in a later block. -/
theorem reaches_read_iff_live_selfLoop :
    let g := Draft.selfLoop.toFlowGraph
    let d : Definition := { var := 0, block := 1, index := 0, instr := some 1 }
    ∃ r r', (ofGraph g).analysis.solve {} g = .ok r ∧ (Liveness.analysis g).solve {} g = .ok r' ∧
      (∃ j ∈ g.instrs, j.isCall = true) ∧ d ∈ (ofGraph g).reachingAt r 1 0 ∧
      0 ∈ Liveness.liveAfter r' 1 ∧
      ∃ i ∈ g.instrs, 0 ∈ i.reads ∧ d ∈ (ofGraph g).reachingAt r i.id 0 := by
  intro g d
  have hbuild : Draft.selfLoop.build = .ok g := rfl
  have hok : ((ofGraph g).analysis.run {} g).outcome = .ok ⟨.worklist, 7, 7⟩ := by
    decide +kernel
  have hok' : ((Liveness.analysis g).run {} g).outcome = .ok ⟨.worklist, 8, 8⟩ := by
    decide +kernel
  have hd : (ofGraph g).defs[1]? = some d := rfl
  obtain ⟨r, hr, hreach⟩ : ∃ r, (ofGraph g).analysis.solve {} g = .ok r ∧
      d ∈ (ofGraph g).reachingAt r 1 0 :=
    ⟨_, Analysis.solve_eq_ok_iff.mpr ⟨_, hok, rfl⟩,
      mem_reachingAt.mpr ⟨rfl, 1, hd, by decide +kernel⟩⟩
  have hr' := Analysis.solve_eq_ok_iff.mpr ⟨_, hok', rfl⟩
  obtain ⟨k, hk, hlive, hreads⟩ :=
    reaches_read_iff_live hbuild hr hr' (Array.mem_of_getElem? hd)
  obtain rfl : 1 = k := Option.some.inj hk
  have hmem : (⟨1, .assign 0 (.binary .add (.var 0) (.var 1))⟩ : Instr) ∈ g.instrs := by
    decide +kernel
  have hlive := hlive _ hmem (by decide) hreach
  exact ⟨r, _, hr, hr', by decide +kernel, hreach, hlive, hreads hlive (Or.inl (by decide))⟩

end DefTable

end FlowFacts

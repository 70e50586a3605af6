import FlowFacts.Proofs.DefinitionTable
import FlowFacts.Proofs.GenKill

/-!
Reaching definitions is exact: a definition is in the fact at a point if and only if a path of
control leads from its assignment to the point and executes nothing that ends the definition on the
way. An assignment does not end its own definition, so a path may run through it again.
-/

set_option autoImplicit false
set_option relaxedAutoImplicit false

namespace FlowFacts

/-- What ends a definition: another assignment to its variable, and a call if it was made in the
entry block. -/
def Definition.KilledBy (d : Definition) (i : Instr) : Prop :=
  (i.target? = some d.var ∧ d.instr ≠ some i.id) ∨ (i.isCall = true ∧ d.block = 0)

namespace DefTable

variable {g : FlowGraph} {n : Nat} {d : Definition}

theorem mem_gen (hg : g.WellFormed) {i : Instr} :
    n ∈ (ofGraph g).gen i ↔ ∃ d, (ofGraph g).defs[n]? = some d ∧ d.instr = some i.id := by
  rw [gen, BitSet.mem_ofList, Option.mem_toList, idOf?_eq_some_iff hg]

theorem mem_gen_iff (hg : g.WellFormed) (hd : (ofGraph g).defs[n]? = some d) {i : Instr} :
    n ∈ (ofGraph g).gen i ↔ d.instr = some i.id := by
  rw [mem_gen hg]
  simp [hd]

theorem mem_kill (hg : g.WellFormed) {i : Instr} :
    n ∈ (ofGraph g).kill i ↔ ∃ d, (ofGraph g).defs[n]? = some d ∧ d.KilledBy i := by
  have hparts : n ∈ (ofGraph g).kill i ↔
      (∃ v, i.target? = some v ∧ n ∈ (ofGraph g).idsWhere (·.var == v) ∧
        some n ≠ (ofGraph g).idOf? i.id) ∨
      (i.isCall = true ∧ n ∈ (ofGraph g).idsWhere (·.block == 0)) := by
    unfold kill globals
    cases i.target? <;> cases i.isCall <;> simp [idsOf_eq_idsWhere]
  rw [hparts]
  cases hd : (ofGraph g).defs[n]? with
  | none => simp [mem_idsWhere, hd]
  | some d =>
    have hown : some n ≠ (ofGraph g).idOf? i.id ↔ d.instr ≠ some i.id := by
      rw [ne_comm, Ne, idOf?_eq_some_iff hg]
      simp [hd]
    simp [mem_idsWhere, hown, hd, Definition.KilledBy]

theorem mem_kill_iff (hg : g.WellFormed) (hd : (ofGraph g).defs[n]? = some d) {i : Instr} :
    n ∈ (ofGraph g).kill i ↔ d.KilledBy i := by
  rw [mem_kill hg]
  simp [hd]

theorem genKill_analysis (t : DefTable) :
    t.analysis.GenKill (fun i n ↦ n ∈ t.gen i) (fun i n ↦ n ∈ t.kill i) where
  meet_eq := rfl
  notMem_initial := BitSet.notMem_new t.size
  mem_transfer := by
    intro i s n
    simp only [analysis, BitSet.mem_union, BitSet.mem_diff, or_comm]

/-- The facts of reaching definitions, by the positions in the table. -/
theorem mem_at_iff {c : Config} {r : Results BitSet} (hg : g.WellFormed)
    (hr : (ofGraph g).analysis.solve c g = .ok r) (n : Nat) (q : Point) :
    n ∈ r.at q ↔ ∃ i ∈ g.instrs, n ∈ (ofGraph g).gen i ∧
      ∃ executed, Path g (.after i.id) executed q ∧ ∀ j ∈ executed, n ∉ (ofGraph g).kill j :=
  ((genKill_analysis _).mem_at_iff hg hr n q).trans (carried_forward_iff hg)

/-- On a built graph, the facts of reaching definitions hold definitions of the graph, and each
definition has one position in the table. It is in the fact at a point if and only if a path leads
from just after its assignment to the point and executes nothing that ends it. -/
theorem reaching_iff_path {draft : Draft} (hbuild : draft.build = .ok g) {c : Config}
    {r : Results BitSet} (hr : (ofGraph g).analysis.solve c g = .ok r) :
    (∀ q, ∀ n ∈ r.at q, ∃ d i, (ofGraph g).defs[n]? = some d ∧ d.MadeBy g i) ∧
    ∀ d i, d.MadeBy g i → ∃ n, (∀ m, (ofGraph g).defs[m]? = some d ↔ m = n) ∧
      ∀ q, n ∈ r.at q ↔ ∃ executed, Path g (.after i.id) executed q ∧
        ∀ j ∈ executed, ¬d.KilledBy j := by
  have hg := draft.wellFormed_of_build hbuild
  constructor
  · intro q n hn
    obtain ⟨i, -, hgen, -⟩ := (mem_at_iff hg hr n q).mp hn
    obtain ⟨d, hd, -⟩ := (mem_gen hg).mp hgen
    obtain ⟨j, hj⟩ := mem_defs_ofGraph.mp (Array.mem_of_getElem? hd)
    exact ⟨d, j, hd, hj⟩
  · intro d i hmade
    obtain ⟨n, hd⟩ := Array.mem_iff_getElem?.mp (mem_defs_ofGraph.mpr ⟨i, hmade⟩)
    refine ⟨n, fun m ↦ ⟨fun hm ↦ eq_of_instr_eq hg hm hd rfl, fun hm ↦ hm ▸ hd⟩, fun q ↦ ?_⟩
    simp only [mem_at_iff hg hr, mem_gen_iff hg hd, mem_kill_iff hg hd]
    constructor
    · rintro ⟨j, hj, hinstr, hpath⟩
      obtain rfl : i = j :=
        hg.eq_of_id_eq hmade.mem_instrs hj (Option.some.inj (hmade.instr.symm.trans hinstr))
      exact hpath
    · intro hpath
      exact ⟨i, hmade.mem_instrs, hmade.instr, hpath⟩

/-- The assignment in the self loop, which is executed again on the way round. -/
theorem reaching_iff_path_selfLoop :
    let g := Draft.selfLoop.toFlowGraph
    let d : Definition := { var := 0, block := 1, index := 0, instr := some 1 }
    ∃ r, (ofGraph g).analysis.solve {} g = .ok r ∧
      ∃ n, (∀ m, (ofGraph g).defs[m]? = some d ↔ m = n) ∧
        ∀ q, n ∈ r.at q ↔ ∃ executed, Path g (.after 1) executed q ∧
          ∀ j ∈ executed, ¬d.KilledBy j := by
  intro g d
  have hbuild : Draft.selfLoop.build = .ok g := rfl
  have hok : ((ofGraph g).analysis.run {} g).outcome = .ok ⟨.worklist, 7, 7⟩ := by
    decide +kernel
  have hr := Analysis.solve_eq_ok_iff.mpr ⟨_, hok, rfl⟩
  have hmade : d.MadeBy g ⟨1, .assign 0 (.binary .add (.var 0) (.var 1))⟩ :=
    ⟨rfl, rfl, _, rfl, rfl⟩
  exact ⟨_, hr, (reaching_iff_path hbuild hr).2 d _ hmade⟩

end DefTable

end FlowFacts

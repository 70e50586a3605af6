import FlowFacts.Liveness
import FlowFacts.Proofs.GenKill

/-!
Live variables is exact: a variable is in the fact at a point if and only if a path of control leads
from the point to an instruction that reads the variable and executes nothing before it that writes
the variable. An instruction that reads and writes the same variable reads it first.
-/

set_option autoImplicit false
set_option relaxedAutoImplicit false

namespace FlowFacts

/-- Assignments read their right-hand sides, branches their conditions and returns their values. -/
inductive Stmt.Reads (v : Nat) : Stmt → Prop
  | assign {dest : Nat} {value : Expr} (hvalue : .var v ∈ value.operands) :
      Stmt.Reads v (.assign dest value)
  | branch : Stmt.Reads v (.branch (.var v))
  | ret : Stmt.Reads v (.ret (some (.var v)))

theorem Stmt.reads_iff {stmt : Stmt} {v : Nat} : stmt.Reads v ↔ .var v ∈ stmt.operands := by
  constructor
  · intro h
    cases h with
    | assign hvalue => exact hvalue
    | branch => exact List.mem_cons_self
    | ret => exact List.mem_cons_self
  · cases stmt with
    | assign dest value => exact .assign
    | call callee args => simp [operands]
    | branch cond =>
      intro h
      obtain rfl : .var v = cond := by simpa [operands] using h
      exact .branch
    | jump => simp [operands]
    | ret value =>
      intro h
      obtain rfl : value = some (.var v) := by simpa [operands] using h
      exact .ret

theorem Operand.var?_eq_some_iff {operand : Operand} {v : Nat} :
    operand.var? = some v ↔ operand = .var v := by
  cases operand <;> simp [var?]

theorem Instr.mem_reads_iff {i : Instr} {v : Nat} : v ∈ i.reads ↔ i.stmt.Reads v := by
  rw [Stmt.reads_iff, reads]
  simp [Operand.var?_eq_some_iff]

namespace Liveness

theorem mem_transfer_iff {i : Instr} {live : BitSet} {v : Nat} :
    v ∈ transfer i live ↔ i.stmt.Reads v ∨ v ∈ live ∧ i.target? ≠ some v := by
  unfold transfer
  rw [BitSet.mem_foldl_insert, Instr.mem_reads_iff]
  cases i.target? <;> simp [eq_comm, and_comm]

theorem genKill_analysis (g : FlowGraph) :
    (analysis g).GenKill (fun i v ↦ i.stmt.Reads v) (fun i v ↦ i.target? = some v) where
  meet_eq := rfl
  notMem_initial := BitSet.notMem_new g.varCount
  mem_transfer := mem_transfer_iff

/-- On a built graph, a variable is live at a point if and only if a path from the point comes to
an instruction that reads it, and no instruction executed on the way writes it. -/
theorem live_iff_path {g : FlowGraph} {draft : Draft} (hbuild : draft.build = .ok g) {c : Config}
    {r : Results BitSet} (hr : (analysis g).solve c g = .ok r) (v : Nat) (q : Point) :
    v ∈ r.at q ↔ ∃ i ∈ g.instrs, i.stmt.Reads v ∧
      ∃ executed, Path g q executed (.before i.id) ∧ ∀ j ∈ executed, j.target? ≠ some v := by
  have hg := draft.wellFormed_of_build hbuild
  have hcarried := (genKill_analysis g).mem_at_iff hg hr v q
  exact hcarried.trans carried_backward_iff

/-- A variable outside the table, read in the loop only. -/
theorem live_iff_path_selfLoop :
    let g := Draft.selfLoop.toFlowGraph
    ∃ r, (analysis g).solve {} g = .ok r ∧ g.varCount = 1 ∧
      ∀ q, 1 ∈ r.at q ↔ ∃ i ∈ g.instrs, i.stmt.Reads 1 ∧
        ∃ executed, Path g q executed (.before i.id) ∧ ∀ j ∈ executed, j.target? ≠ some 1 := by
  intro g
  have hbuild : Draft.selfLoop.build = .ok g := rfl
  have hok : ((analysis g).run {} g).outcome = .ok ⟨.worklist, 8, 8⟩ := by
    decide +kernel
  have hr := Analysis.solve_eq_ok_iff.mpr ⟨_, hok, rfl⟩
  exact ⟨_, hr, rfl, live_iff_path hbuild hr 1⟩

end Liveness

end FlowFacts

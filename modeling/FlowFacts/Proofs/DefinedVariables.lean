import Mathlib.Order.Bounds.Basic
import Mathlib.Order.PropInstances
import FlowFacts.Proofs.ConstantStates
import FlowFacts.Proofs.FactInvariants

/-!
Which variables constant propagation without folding defines. Forget the values and keep only
whether a variable has one: a meet defines what either side defines, and what a transfer defines
depends on nothing else. So the facts of a converged run solve a system of equations about defined
variables, whatever the order of visits. They solve it with as few variables as possible, since a
run defines a variable at a point only if a literal comes to it there, through copies, and every
solution follows literals and copies. All converged runs therefore define the same variables.
-/

set_option autoImplicit false
set_option relaxedAutoImplicit false

namespace FlowFacts

/-- The variables that are defined after a statement, from those before it: a literal defines its
target, and a copy does if its source is defined. No other statement changes anything. -/
def Stmt.DefinedAfter : Stmt → (Nat → Prop) → Nat → Prop
  | .assign x (.operand (.const _)), D, v => v = x ∨ D v
  | .assign x (.operand (.var y)), D, v => D v ∨ v = x ∧ D y
  | _, D, v => D v

/-- What a transfer defines depends on what is defined before it and not on the values. -/
theorem ConstState.get_transfer_ne_undefined_iff {i : Instr} {s : ConstState} {v : Nat} :
    (ConstState.transfer false i s).get v ≠ .undefined ↔
      i.stmt.DefinedAfter (fun w ↦ s.get w ≠ .undefined) v := by
  cases hstmt : i.stmt with
  | assign x e =>
    rw [get_transfer_assign hstmt]
    cases e with
    | operand y =>
      cases y with
      | const c => by_cases hv : v = x <;> simp [Stmt.DefinedAfter, value, operand, hv]
      | var y => by_cases hv : v = x <;> by_cases hy : s.get y = .undefined <;>
          simp [Stmt.DefinedAfter, value, operand, hv, hy]
    | unary op y => simp [Stmt.DefinedAfter, value]
    | binary op y z => simp [Stmt.DefinedAfter, value]
  | _ =>
    rw [transfer_of_target?_eq_none (by simp [Instr.target?, hstmt])]
    rfl

theorem Stmt.DefinedAfter.mono {stmt : Stmt} {D D' : Nat → Prop} {v : Nat}
    (hmono : ∀ w, D w → D' w) (h : stmt.DefinedAfter D v) : stmt.DefinedAfter D' v := by
  unfold DefinedAfter at h ⊢
  split at h
  · exact h.imp_right (hmono v)
  · exact h.imp (hmono v) (And.imp_right (hmono _))
  · exact hmono v h

namespace ConstProp

variable {g : FlowGraph} {p q : Point} {v : Nat}

/-! ### Literals and copies -/

/-- A literal comes to the variable on some way to the point, through copies. -/
inductive Defined (g : FlowGraph) : Point → Nat → Prop
  | literal {i : Instr} {v : Nat} {c : Const} (hi : i ∈ g.instrs)
      (hstmt : i.stmt = .assign v (.operand (.const c))) : Defined g (.after i.id) v
  | copy {i : Instr} {v w : Nat} (hi : i ∈ g.instrs)
      (hstmt : i.stmt = .assign v (.operand (.var w))) (h : Defined g (.before i.id) w) :
      Defined g (.after i.id) v
  | keep {i : Instr} {v : Nat} (hi : i ∈ g.instrs) (h : Defined g (.before i.id) v) :
      Defined g (.after i.id) v
  | move {p q : Point} {v : Nat} (hstep : Step g p none q) (h : Defined g p v) : Defined g q v

theorem defined_after {i : Instr} (hi : i ∈ g.instrs)
    (h : i.stmt.DefinedAfter (Defined g (.before i.id)) v) : Defined g (.after i.id) v := by
  unfold Stmt.DefinedAfter at h
  split at h
  · next x c hstmt =>
    rcases h with rfl | h
    · exact .literal hi hstmt
    · exact .keep hi h
  · next x y hstmt =>
    rcases h with h | ⟨rfl, h⟩
    · exact .keep hi h
    · exact .copy hi hstmt h
  · exact .keep hi h

/-- Visits define nothing but what literals come to. -/
theorem closed_defined (hg : g.WellFormed) :
    (analysis g false).Closed g fun q s ↦ ∀ v, s.get v ≠ .undefined → Defined g q v where
  initial _ v hv := absurd (ConstState.get_new g.varCount v) hv
  meet {q s t} hs ht v hv := by
    change (s.meet t).get v ≠ _ at hv
    rw [ConstState.get_meet, Ne, ConstFact.meet_eq_undefined_iff, not_and_or] at hv
    exact hv.elim (hs v) (ht v)
  stay hflow h v hv := .move ((flow_forward_iff hg).mp hflow) (h v hv)
  pass hflow h v hv := by
    cases hflow with
    | execute hi => exact defined_after hi ((ConstState.get_transfer_ne_undefined_iff.mp hv).mono h)

/-! ### The equations -/

/-- The equations of defined variables: at its start a block has what some predecessor has at its
end, and inside a block each statement has its effect. -/
structure DefinitionEquations (g : FlowGraph) (D : Point → Nat → Prop) : Prop where
  entering : ∀ {b : Nat} {block : Block} {v : Nat}, g.block? b = some block →
    (D (.blockStart b) v ↔ ∃ p ∈ block.preds, D (.blockEnd p) v)
  first : ∀ {b : Nat} {block : Block} {i : Instr} {v : Nat}, g.block? b = some block →
    block.instrs.head? = some i → (D (.before i.id) v ↔ D (.blockStart b) v)
  passing : ∀ {i : Instr} {v : Nat}, i ∈ g.instrs →
    (D (.after i.id) v ↔ i.stmt.DefinedAfter (D (.before i.id)) v)
  next : ∀ {b : Nat} {block : Block} {i j : Instr} {v : Nat}, g.block? b = some block →
    [i, j] <:+: block.instrs → (D (.before j.id) v ↔ D (.after i.id) v)
  last : ∀ {b : Nat} {block : Block} {i : Instr} {v : Nat}, g.block? b = some block →
    block.instrs.getLast? = some i → (D (.blockEnd b) v ↔ D (.after i.id) v)
  empty : ∀ {b : Nat} {block : Block} {v : Nat}, g.block? b = some block → block.instrs = [] →
    (D (.blockEnd b) v ↔ D (.blockStart b) v)

theorem get_foldl_meet_ne_undefined_iff {fact : Nat → ConstState} {sources : List Nat}
    {start : ConstState} :
    (sources.foldl (fun s p ↦ s.meet (fact p)) start).get v ≠ .undefined ↔
      start.get v ≠ .undefined ∨ ∃ p ∈ sources, (fact p).get v ≠ .undefined := by
  induction sources generalizing start with
  | nil => simp
  | cons p rest ih =>
    rw [List.foldl_cons, ih, ConstState.get_meet, Ne, ConstFact.meet_eq_undefined_iff, not_and_or,
      List.exists_mem_cons_iff, or_assoc]

/-- A solution of the flow equations defines a solution of these, whatever values it has. -/
theorem definitionEquations_of_solves {fact : Point → ConstState}
    (hsolves : (analysis g false).Solves g fact) :
    DefinitionEquations g fun q v ↦ (fact q).get v ≠ .undefined := by
  have hequations := Analysis.solves_iff.mp hsolves
  have hiff : ∀ {s t : ConstState} {v : Nat}, s == t →
      (s.get v ≠ .undefined ↔ t.get v ≠ .undefined) := fun {s t v} hst ↦ by
    rw [ConstState.beq_iff.mp hst v]
  refine ⟨fun {b block v} hb ↦ ?_, fun hb hi ↦ hiff (hequations.first hb hi), fun hi ↦ ?_,
    fun hb hij ↦ hiff (hequations.next hb hij), fun hb hi ↦ hiff (hequations.last hb hi),
    fun hb hempty ↦ hiff (hequations.empty hb hempty)⟩
  · refine (hiff (hequations.entering hb)).trans (get_foldl_meet_ne_undefined_iff.trans ?_)
    exact or_iff_right fun hv ↦ hv (ConstState.get_new g.varCount v)
  · exact (hiff (hsolves.beq_transfer_of_flow (.execute hi))).trans
      ConstState.get_transfer_ne_undefined_iff

/-- Every solution follows literals and copies. -/
theorem Defined.of_equations (hg : g.WellFormed) {D : Point → Nat → Prop}
    (hD : DefinitionEquations g D) (h : Defined g q v) : D q v := by
  induction h with
  | literal hi hstmt =>
    rw [hD.passing hi, hstmt]
    exact Or.inl rfl
  | copy hi hstmt _ ih =>
    rw [hD.passing hi, hstmt]
    exact Or.inr ⟨rfl, ih⟩
  | @keep i v hi _ ih =>
    rw [hD.passing hi]
    unfold Stmt.DefinedAfter
    split
    · exact Or.inr ih
    · exact Or.inl ih
    · exact ih
  | move hstep _ ih =>
    cases hstep with
    | first hb hi => exact (hD.first hb hi).mpr ih
    | next hb hij => exact (hD.next hb hij).mpr ih
    | last hb hi => exact (hD.last hb hi).mpr ih
    | pass hb hempty => exact (hD.empty hb hempty).mpr ih
    | @edge p s hs =>
      obtain ⟨block, hb⟩ := FlowGraph.exists_block?_of_lt (hg.lt_of_mem_succs hs)
      have hpred := hg.mem_preds_iff.mpr hs
      rw [FlowGraph.preds_of_block? hb] at hpred
      exact (hD.entering hb).mpr ⟨p, hpred, ih⟩

/-- Without folding, a converged run defines exactly the defined variables. -/
theorem get_ne_undefined_iff (hg : g.WellFormed) {c : Config} {r : Results ConstState}
    (hr : (analysis g false).solve c g = .ok r) :
    (r.at q).get v ≠ .undefined ↔ Defined g q v :=
  ⟨Analysis.holds_of_solve_ok (closed_defined hg) hr q v,
    fun h ↦ h.of_equations hg (definitionEquations_of_solves
      (Analysis.solves_of_solve_ok hg (respectful_analysis g false) hr))⟩

/-- No order of visits enters what is defined. -/
theorem get_eq_undefined_iff (hg : g.WellFormed) {c c' : Config} {r r' : Results ConstState}
    (hr : (analysis g false).solve c g = .ok r) (hr' : (analysis g false).solve c' g = .ok r') :
    (r.at q).get v = .undefined ↔ (r'.at q).get v = .undefined :=
  not_iff_not.mp ((get_ne_undefined_iff hg hr).trans (get_ne_undefined_iff hg hr').symm)

/-- Without folding, any two converged runs on a built graph leave the same variables undefined
everywhere. The defined ones are the least solution of the equations. -/
theorem defined_variables_least {draft : Draft} (hbuild : draft.build = .ok g) {c c' : Config}
    {r r' : Results ConstState} (hr : (analysis g false).solve c g = .ok r)
    (hr' : (analysis g false).solve c' g = .ok r') :
    (∀ q v, (r.at q).get v = .undefined ↔ (r'.at q).get v = .undefined) ∧
      IsLeast {D | DefinitionEquations g D} fun q v ↦ (r.at q).get v ≠ .undefined := by
  have hg := draft.wellFormed_of_build hbuild
  refine ⟨fun q v ↦ get_eq_undefined_iff hg hr hr', ?_, fun D hD q v hv ↦ ?_⟩
  · exact definitionEquations_of_solves
      (Analysis.solves_of_solve_ok hg (respectful_analysis g false) hr)
  · exact ((get_ne_undefined_iff hg hr).mp hv).of_equations hg hD

/-- A loop that copies a variable before it assigns it, and a sum that is not folded. -/
def circling : Draft where
  blocks := #[
    #[.assign 1 (.operand (.var 0)), .assign 2 (.binary .add (.var 0) (.var 1))],
    #[.assign 0 (.operand (.const (.int 1)))]]
  edges := #[(0, 1), (1, 0)]
  varNames := #["a", "b", "s"]
  stray := none
  edges_nodup := by decide
  varNames_nodup := by decide

/-- The copy is defined where it has been round the loop, and the sum nowhere. -/
theorem defined_variables_least_circling :
    let g := circling.toFlowGraph
    ∃ r r', circling.build = .ok g ∧
      (analysis g false).solve { strategy := .naive } g = .ok r ∧
      (analysis g false).solve { strategy := .worklist } g = .ok r' ∧
      (∀ q v, (r.at q).get v = .undefined ↔ (r'.at q).get v = .undefined) ∧
      IsLeast {D | DefinitionEquations g D} (fun q v ↦ (r.at q).get v ≠ .undefined) ∧
      (r.at (.blockStart 0)).get 1 = .constant (.int 1) ∧
      (r'.at (.blockEnd 0)).get 2 = .undefined := by
  intro g
  have hbuild : circling.build = .ok g := rfl
  have hnaive : ((analysis g false).run { strategy := .naive } g).outcome = .ok ⟨.naive, 4, 8⟩ := by
    decide +kernel
  have hworklist : ((analysis g false).run { strategy := .worklist } g).outcome =
      .ok ⟨.worklist, 6, 6⟩ := by
    decide +kernel
  have hr := Analysis.solve_eq_ok_iff.mpr ⟨_, hnaive, rfl⟩
  have hr' := Analysis.solve_eq_ok_iff.mpr ⟨_, hworklist, rfl⟩
  obtain ⟨hsame, hleast⟩ := defined_variables_least hbuild hr hr'
  exact ⟨_, _, hbuild, hr, hr', hsame, hleast, by decide +kernel, by decide +kernel⟩

end ConstProp

end FlowFacts

import Mathlib.Logic.Function.Basic
import FlowFacts.Proofs.ConstantStates
import FlowFacts.Proofs.Fixpoint

/-!
Constant propagation with folding is sound for executions. An execution starts at the entry with no
variable initialised, runs the instructions in their order and follows any edge at the end of a
block; it stops where a variable without a value is read or an operator has no result. A fact covers
a value when it is that constant or says that there is none. What a solution records at a point
covers every value that an execution brings there: transfers keep this because an instruction that
executes finds all its operands covered, and joins because a meet covers what either side covers.
The decided branches follow.
-/

set_option autoImplicit false
set_option relaxedAutoImplicit false

namespace FlowFacts

/-! ### Executions -/

/-- The values of the initialised variables. -/
abbrev Store := Nat → Option Const

def Operand.read? (store : Store) : Operand → Option Const
  | var v => store v
  | const c => some c

def Expr.eval? (store : Store) : Expr → Option Const
  | operand x => x.read? store
  | unary op x => (x.read? store).bind op.apply
  | binary op x y => (x.read? store).bind fun a ↦ (y.read? store).bind (op.apply a)

/-- The store after a statement, unless the statement cannot be executed. -/
def Stmt.exec? (store : Store) : Stmt → Option Store
  | assign dest e => (e.eval? store).map fun value ↦ Function.update store dest (some value)
  | call _ _ => some store
  | branch cond => (cond.read? store).map fun _ ↦ store
  | jump => some store
  | ret none => some store
  | ret (some x) => (x.read? store).map fun _ ↦ store

/-- The points that executions come to, with the store they have there. -/
inductive Reaches (g : FlowGraph) : Point → Store → Prop
  | start (hentry : g.entry < g.blockCount) : Reaches g (.blockStart g.entry) fun _ ↦ none
  | move {p q : Point} {store : Store} (h : Reaches g p store) (hstep : Step g p none q) :
      Reaches g q store
  | execute {p q : Point} {i : Instr} {store store' : Store} (h : Reaches g p store)
      (hstep : Step g p (some i) q) (hexec : i.stmt.exec? store = some store') : Reaches g q store'

/-- Only an assignment changes the store, and only at its target. -/
theorem Stmt.exec?_eq_some {stmt : Stmt} {store store' : Store}
    (h : stmt.exec? store = some store') :
    (∃ dest e value, stmt = .assign dest e ∧ e.eval? store = some value ∧
      store' = Function.update store dest (some value)) ∨
    (∀ dest e, stmt ≠ .assign dest e) ∧ store' = store := by
  cases stmt with
  | assign dest e =>
    obtain ⟨value, hvalue, rfl⟩ := Option.map_eq_some_iff.mp h
    exact Or.inl ⟨dest, e, value, rfl, hvalue, rfl⟩
  | call callee args => exact Or.inr ⟨by simp, (Option.some.inj h).symm⟩
  | branch cond =>
    obtain ⟨value, -, rfl⟩ := Option.map_eq_some_iff.mp h
    exact Or.inr ⟨by simp, rfl⟩
  | jump => exact Or.inr ⟨by simp, (Option.some.inj h).symm⟩
  | ret value =>
    refine Or.inr ⟨by simp, ?_⟩
    cases value with
    | none => exact (Option.some.inj h).symm
    | some x =>
      obtain ⟨value, -, rfl⟩ := Option.map_eq_some_iff.mp h
      rfl

/-! ### Facts that cover values -/

/-- The fact allows the variable to hold the value. -/
def ConstFact.Covers (fact : ConstFact) (value : Const) : Prop :=
  fact = .constant value ∨ fact = .notConstant

namespace ConstFact

variable {x y : ConstFact} {a b value : Const}

theorem covers_meet (h : x.Covers value ∨ y.Covers value) : (x.meet y).Covers value := by
  rcases h with (rfl | rfl) | (rfl | rfl)
  · cases y with
    | undefined => exact Or.inl (meet_undefined _)
    | notConstant => exact Or.inr (meet_notConstant _)
    | constant c => by_cases hc : value = c <;> simp [Covers, meet, hc]
  · exact Or.inr (notConstant_meet y)
  · cases x with
    | undefined => exact Or.inl (undefined_meet _)
    | notConstant => exact Or.inr (notConstant_meet _)
    | constant c => by_cases hc : c = value <;> simp [Covers, meet, hc]
  · exact Or.inr (meet_notConstant x)

theorem covers_applyUnary {op : UnaryOp} (hx : x.Covers a) (h : op.apply a = some value) :
    (x.applyUnary op).Covers value := by
  rcases hx with rfl | rfl
  · exact Or.inl (by rw [applyUnary, h, ofResult])
  · exact Or.inr rfl

theorem covers_applyBinary {op : BinaryOp} (hx : x.Covers a) (hy : y.Covers b)
    (h : op.apply a b = some value) : (x.applyBinary op y).Covers value := by
  rcases hx with rfl | rfl
  · rcases hy with rfl | rfl
    · exact Or.inl (by rw [applyBinary, h, ofResult])
    · exact Or.inr rfl
  · exact Or.inr (by cases y <;> rfl)

theorem Covers.eq_of_constant (h : (constant a).Covers value) : a = value := by
  rcases h with h | h
  · exact ConstFact.constant.inj h
  · cases h

theorem Covers.ne_undefined (h : x.Covers value) : x ≠ .undefined := by
  rcases h with rfl | rfl <;> simp

end ConstFact

/-- The state allows every variable to hold the value that it has. -/
def ConstState.Covers (s : ConstState) (store : Store) : Prop :=
  ∀ x value, store x = some value → (s.get x).Covers value

namespace ConstState

variable {s t : ConstState} {store store' : Store}

theorem covers_congr (h : s == t) (hs : s.Covers store) : t.Covers store := fun x value hx ↦ by
  rw [← beq_iff.mp h x]
  exact hs x value hx

theorem covers_meet (h : s.Covers store ∨ t.Covers store) : (s.meet t).Covers store :=
  fun x value hx ↦ by
    rw [get_meet]
    exact ConstFact.covers_meet (h.imp (· x value hx) (· x value hx))

theorem covers_operand (hs : s.Covers store) {x : Operand} {value : Const}
    (hx : x.read? store = some value) : (s.operand x).Covers value := by
  cases x with
  | var v => exact hs v value hx
  | const c => exact Or.inl (congrArg ConstFact.constant (Option.some.inj hx))

theorem covers_value (hs : s.Covers store) {e : Expr} {value : Const}
    (he : e.eval? store = some value) : (s.value true e).Covers value := by
  cases e with
  | operand x => exact covers_operand hs he
  | unary op x =>
    obtain ⟨a, ha, hvalue⟩ := Option.bind_eq_some_iff.mp he
    exact ConstFact.covers_applyUnary (covers_operand hs ha) hvalue
  | binary op x y =>
    obtain ⟨a, ha, hrest⟩ := Option.bind_eq_some_iff.mp he
    obtain ⟨b, hb, hvalue⟩ := Option.bind_eq_some_iff.mp hrest
    exact ConstFact.covers_applyBinary (covers_operand hs ha) (covers_operand hs hb) hvalue

/-- The value of an executed right-hand side is known, so the target never keeps an old fact. -/
theorem covers_transfer {i : Instr} (hs : s.Covers store)
    (hexec : i.stmt.exec? store = some store') : (transfer true i s).Covers store' := by
  intro x value hx
  rcases Stmt.exec?_eq_some hexec with ⟨dest, e, result, hstmt, heval, rfl⟩ | ⟨hstmt, rfl⟩
  · have hresult := covers_value hs heval
    rw [get_transfer_assign hstmt]
    by_cases hdest : x = dest
    · rw [hdest, Function.update_self] at hx
      rw [if_pos ⟨hdest, hresult.ne_undefined⟩]
      exact Option.some.inj hx ▸ hresult
    · rw [Function.update_of_ne hdest] at hx
      rw [if_neg fun h ↦ hdest h.1]
      exact hs x value hx
  · have htarget : i.target? = none := by
      cases htarget : i.target? with
      | none => rfl
      | some dest =>
        obtain ⟨e, hassign⟩ := exists_assign_of_target? htarget
        exact absurd hassign (hstmt dest e)
    rw [transfer_of_target?_eq_none htarget]
    exact hs x value hx

end ConstState

/-! ### Soundness -/

namespace ConstProp

variable {g : FlowGraph} {q : Point} {store : Store}

/-- A solution covers the store of every execution at every point. -/
theorem covers_of_reaches (hg : g.WellFormed) {fact : Point → ConstState}
    (hsolves : (analysis g true).Solves g fact) (h : Reaches g q store) :
    (fact q).Covers store := by
  induction h with
  | start _ => exact fun x value hx ↦ by cases hx
  | move _ hstep ih =>
    exact hsolves.spread ConstState.covers_congr ConstState.covers_meet
      ((flow_forward_iff hg).mpr hstep) ih
  | execute _ hstep hexec ih =>
    have htransfer := hsolves.beq_transfer_of_flow ((flow_forward_iff hg).mpr hstep)
    exact ConstState.covers_congr (BEq.symm htransfer) (ConstState.covers_transfer ih hexec)

/-- Two solutions do not contradict each other about a variable that an execution has assigned. -/
theorem constants_agree_of_reaches (hg : g.WellFormed) {fact fact' : Point → ConstState}
    (hsolves : (analysis g true).Solves g fact) (hsolves' : (analysis g true).Solves g fact')
    (h : Reaches g q store) {x : Nat} (hx : store x ≠ none) {a b : Const}
    (ha : (fact q).get x = .constant a) (hb : (fact' q).get x = .constant b) : a = b := by
  obtain ⟨value, hvalue⟩ := Option.ne_none_iff_exists'.mp hx
  have hcovers := covers_of_reaches hg hsolves h x value hvalue
  have hcovers' := covers_of_reaches hg hsolves' h x value hvalue
  rw [ha] at hcovers
  rw [hb] at hcovers'
  exact hcovers.eq_of_constant.trans hcovers'.eq_of_constant.symm

/-- A decided branch goes the way that its condition has in every execution. -/
theorem truth?_of_branchOutcome {r : Results ConstState} {block : Block} {i : Instr}
    {cond : Operand} {t : Bool} (hlast : block.terminator? = some i) (hstmt : i.stmt = .branch cond)
    (houtcome : branchOutcome r block = some t) (hcovers : (r.at (.before i.id)).Covers store)
    {value : Const} (hcond : cond.read? store = some value) : value.truth? = some t := by
  obtain ⟨id, stmt⟩ := i
  obtain rfl : stmt = .branch cond := hstmt
  rw [branchOutcome, hlast] at houtcome
  obtain ⟨c, hc, htruth⟩ := Option.bind_eq_some_iff.mp houtcome
  rcases ConstState.covers_operand hcovers hcond with hfact | hfact
  · have hconst : ((r.instrIn id).operand cond).const? = some value := by
      rw [show (r.instrIn id).operand cond = .constant value from hfact]
      rfl
    rw [hconst] at hc
    rwa [Option.some.inj hc]
  · rw [show (r.instrIn id).operand cond = .notConstant from hfact] at hc
    cases hc

/-- On a built graph, wherever an execution comes, a variable that holds a value has that constant
or no constant as its converged fact, and a branch that the facts decide goes that way. -/
theorem executions_respect_facts {draft : Draft} (hbuild : draft.build = .ok g) {c : Config}
    {r : Results ConstState} (hr : (analysis g true).solve c g = .ok r) :
    (∀ q store, Reaches g q store → ∀ x value, store x = some value →
      (r.at q).get x = .constant value ∨ (r.at q).get x = .notConstant) ∧
    ∀ b block i cond t, g.block? b = some block → block.terminator? = some i →
      i.stmt = .branch cond → branchOutcome r block = some t →
      ∀ store value, Reaches g (.before i.id) store → cond.read? store = some value →
        value.truth? = some t := by
  have hg := draft.wellFormed_of_build hbuild
  have hsolves := Analysis.solves_of_solve_ok hg (respectful_analysis g true) hr
  refine ⟨fun q store hreach ↦ covers_of_reaches hg hsolves hreach, ?_⟩
  intro b block i cond t _ hlast hstmt houtcome store value hreach hcond
  exact truth?_of_branchOutcome hlast hstmt houtcome (covers_of_reaches hg hsolves hreach) hcond

/-- A loop that adds to a variable and tests a constant. -/
def adding : Draft where
  blocks := #[
    #[.assign 0 (.operand (.const (.int 1))), .assign 1 (.operand (.const (.int 6)))],
    #[.assign 0 (.binary .add (.var 0) (.var 1)),
      .assign 2 (.binary .gt (.var 1) (.const (.int 3))), .branch (.var 2)],
    #[.ret (some (.var 0))]]
  edges := #[(0, 1), (1, 1), (1, 2)]
  varNames := #["n", "k", "c"]
  stray := none
  edges_nodup := by decide
  varNames_nodup := by decide

/-- The first time round the loop: the sum is no constant, and the branch is decided. -/
theorem executions_respect_facts_adding :
    let g := adding.toFlowGraph
    ∃ r store block, (analysis g true).solve {} g = .ok r ∧ g.block? 1 = some block ∧
      Reaches g (.before 4) store ∧ store 0 = some (.int 7) ∧ store 2 = some (.bool true) ∧
      branchOutcome r block = some true ∧
      ((r.at (.before 4)).get 0 = .constant (.int 7) ∨ (r.at (.before 4)).get 0 = .notConstant) ∧
      Const.truth? (.bool true) = some true := by
  intro g
  let r := Results.ofFacts ((analysis g true).run {} g).facts (.new 3) .forward ⟨.worklist, 6, 6⟩
  have hok : ((analysis g true).run {} g).outcome = .ok ⟨.worklist, 6, 6⟩ := by decide +kernel
  have hr : (analysis g true).solve {} g = .ok r := Analysis.solve_eq_ok_iff.mpr ⟨_, hok, rfl⟩
  have hbuild : adding.build = .ok g := rfl
  obtain ⟨hfacts, hbranches⟩ := executions_respect_facts hbuild hr
  let i0 : Instr := ⟨0, .assign 0 (.operand (.const (.int 1)))⟩
  let i1 : Instr := ⟨1, .assign 1 (.operand (.const (.int 6)))⟩
  let i2 : Instr := ⟨2, .assign 0 (.binary .add (.var 0) (.var 1))⟩
  let i3 : Instr := ⟨3, .assign 2 (.binary .gt (.var 1) (.const (.int 3)))⟩
  let i4 : Instr := ⟨4, .branch (.var 2)⟩
  have hentry := Reaches.start (g := g) (by decide)
  have h0 := hentry.move (.first (b := 0) (i := i0) rfl rfl)
  have h1 := (h0.execute (.execute (i := i0) (by decide)) rfl).move
    (.next (b := 0) (j := i1) rfl (by decide))
  have hend := (h1.execute (.execute (i := i1) (by decide)) rfl).move (.last (b := 0) rfl rfl)
  have h2 := (hend.move (.edge (s := 1) (by decide))).move (.first (b := 1) (i := i2) rfl rfl)
  have h3 := (h2.execute (.execute (i := i2) (by decide)) rfl).move
    (.next (b := 1) (j := i3) rfl (by decide))
  have h4 := (h3.execute (.execute (i := i3) (by decide)) rfl).move
    (.next (b := 1) (j := i4) rfl (by decide))
  let loop : Block := { instrs := [i2, i3, i4], succs := [1, 2], preds := [0, 1] }
  have hloop : g.block? 1 = some loop := rfl
  have houtcome : branchOutcome r loop = some true := by decide +kernel
  exact ⟨r, _, loop, hr, hloop, h4, rfl, rfl, houtcome, hfacts _ _ h4 0 _ rfl,
    hbranches 1 loop i4 _ _ hloop rfl rfl houtcome _ _ h4 rfl⟩

end ConstProp

end FlowFacts

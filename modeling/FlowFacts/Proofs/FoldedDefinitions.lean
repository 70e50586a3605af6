import FlowFacts.Proofs.FactInvariants
import FlowFacts.Proofs.OverwritingConstants

/-!
Which variables constant propagation with folding defines. Folding breaks the rule that only defined
variables define others: an operand that is no constant decides an expression alone, even beside an
undefined one. Whether it is no constant can depend on the order of visits, and what it defined once
can sustain itself round a loop after the operand has become a constant again. So runs are bounded
from two sides. A variable is certain where assignments from certain variables reach it, and defined
there in every converged run. No run gives it a value but those that come there, in some order of
visits, by the rules of the analysis. The bounds meet if all that an expression reads beside a
variable that may be no constant is certain, and then all runs define the same variables.
-/

set_option autoImplicit false
set_option relaxedAutoImplicit false

namespace FlowFacts

namespace ConstFact

theorem ofResult_ne_undefined (result : Option Const) : ofResult result ≠ undefined := by
  cases result <;> exact ConstFact.noConfusion

theorem applyUnary_ne_undefined {op : UnaryOp} {x : ConstFact} (hx : x ≠ undefined) :
    x.applyUnary op ≠ undefined := by
  cases x with
  | undefined => exact absurd rfl hx
  | constant c => exact ofResult_ne_undefined _
  | notConstant => exact ConstFact.noConfusion

theorem applyBinary_ne_undefined {op : BinaryOp} {x y : ConstFact} (hx : x ≠ undefined)
    (hy : y ≠ undefined) : x.applyBinary op y ≠ undefined := by
  cases x with
  | undefined => exact absurd rfl hx
  | notConstant => exact ConstFact.noConfusion
  | constant a =>
    cases y with
    | undefined => exact absurd rfl hy
    | notConstant => exact ConstFact.noConfusion
    | constant b => exact ofResult_ne_undefined _

end ConstFact

namespace ConstState

variable {s : ConstState} {e : Expr}

/-- An expression whose operands are all defined has a value. -/
theorem value_ne_undefined (h : ∀ x ∈ e.operands, s.operand x ≠ .undefined) :
    s.value true e ≠ .undefined := by
  cases e with
  | operand x => exact h x (List.mem_singleton_self x)
  | unary op x => exact ConstFact.applyUnary_ne_undefined (h x (List.mem_singleton_self x))
  | binary op x y =>
    exact ConstFact.applyBinary_ne_undefined (h x List.mem_cons_self)
      (h y (List.mem_cons_of_mem x (List.mem_singleton_self y)))

/-- A transfer never makes a variable undefined. -/
theorem get_transfer_ne_undefined {fold : Bool} {i : Instr} {v : Nat} (h : s.get v ≠ .undefined) :
    (transfer fold i s).get v ≠ .undefined := by
  cases htarget : i.target? with
  | none => rwa [transfer_of_target?_eq_none htarget]
  | some dest =>
    obtain ⟨e, hstmt⟩ := exists_assign_of_target? htarget
    rw [get_transfer_assign hstmt]
    split_ifs with hwrites
    · exact hwrites.2
    · exact h

end ConstState

theorem Instr.mem_reads_iff_of_assign {i : Instr} {dest w : Nat} {e : Expr}
    (hstmt : i.stmt = .assign dest e) : w ∈ i.reads ↔ .var w ∈ e.operands := by
  rw [reads, hstmt, List.mem_filterMap]
  constructor
  · rintro ⟨x, hx, hvar⟩
    cases x with
    | var v => rwa [← Option.some.inj hvar]
    | const c => cases hvar
  · exact fun hw ↦ ⟨.var w, hw, rfl⟩

namespace ConstProp

variable {g : FlowGraph} {q : Point} {v : Nat} {x : ConstFact}

/-! ### Certain variables -/

/-- An assignment that reads certain variables only comes to the variable on some way to the
point. -/
inductive Certain (g : FlowGraph) : Point → Nat → Prop
  | assign {i : Instr} {v : Nat} {e : Expr} (hi : i ∈ g.instrs) (hstmt : i.stmt = .assign v e)
      (hreads : ∀ w ∈ i.reads, Certain g (.before i.id) w) : Certain g (.after i.id) v
  | keep {i : Instr} {v : Nat} (hi : i ∈ g.instrs) (h : Certain g (.before i.id) v) :
      Certain g (.after i.id) v
  | move {p q : Point} {v : Nat} (hstep : Step g p none q) (h : Certain g p v) : Certain g q v

/-- Every solution of the flow equations defines the certain variables. -/
theorem Certain.get_ne_undefined (hg : g.WellFormed) {fact : Point → ConstState}
    (hsolves : (analysis g true).Solves g fact) (h : Certain g q v) :
    (fact q).get v ≠ .undefined := by
  have htransfer : ∀ {i : Instr} {v : Nat}, i ∈ g.instrs →
      (fact (.after i.id)).get v = (ConstState.transfer true i (fact (.before i.id))).get v :=
    fun hi ↦ ConstState.beq_iff.mp (hsolves.beq_transfer_of_flow (.execute hi)) _
  induction h with
  | @assign i v e hi hstmt _ ih =>
    have hvalue : (fact (.before i.id)).value true e ≠ .undefined := by
      refine ConstState.value_ne_undefined fun x hx ↦ ?_
      cases x with
      | var w => exact ih w ((Instr.mem_reads_iff_of_assign hstmt).mpr hx)
      | const c => exact ConstFact.noConfusion
    rw [htransfer hi, ConstState.get_transfer_assign hstmt, if_pos ⟨rfl, hvalue⟩]
    exact hvalue
  | keep hi _ ih =>
    rw [htransfer hi]
    exact ConstState.get_transfer_ne_undefined ih
  | @move p q v hstep _ ih =>
    refine hsolves.spread (P := fun s : ConstState ↦ s.get v ≠ .undefined) (fun hst hs ↦ ?_)
      (fun hs ↦ ?_) ((flow_forward_iff hg).mpr hstep) ih
    · rwa [← ConstState.beq_iff.mp hst v]
    · change (ConstState.meet _ _).get v ≠ _
      rw [ConstState.get_meet, Ne, ConstFact.meet_eq_undefined_iff, not_and_or]
      exact hs

/-! ### Values that may come -/

/-- Some order of visits may give the variable this value at the point. An assignment takes the
value that its right-hand side has in a state of values that may come before it. -/
inductive Comes (g : FlowGraph) : Point → Nat → ConstFact → Prop
  | assign {i : Instr} {v : Nat} {e : Expr} {s : ConstState} (hi : i ∈ g.instrs)
      (hstmt : i.stmt = .assign v e)
      (hs : ∀ w ∈ i.reads, s.get w ≠ .undefined → Comes g (.before i.id) w (s.get w))
      (hvalue : s.value true e ≠ .undefined) : Comes g (.after i.id) v (s.value true e)
  | keep {i : Instr} {v : Nat} {x : ConstFact} (hi : i ∈ g.instrs)
      (h : Comes g (.before i.id) v x) : Comes g (.after i.id) v x
  | move {p q : Point} {v : Nat} {x : ConstFact} (hstep : Step g p none q) (h : Comes g p v x) :
      Comes g q v x
  | meet {q : Point} {v : Nat} {x y : ConstFact} (hx : Comes g q v x) (hy : Comes g q v y) :
      Comes g q v (x.meet y)

/-- Visits give no values but those that may come. -/
theorem closed_comes (hg : g.WellFormed) :
    (analysis g true).Closed g fun q s ↦ ∀ v, s.get v ≠ .undefined → Comes g q v (s.get v) where
  initial _ v hv := absurd (ConstState.get_new g.varCount v) hv
  meet {q s t} hs ht v hv := by
    change (s.meet t).get v ≠ _ at hv
    change Comes g q v ((s.meet t).get v)
    rw [ConstState.get_meet] at hv ⊢
    by_cases hsv : s.get v = .undefined
    · rw [hsv, ConstFact.undefined_meet] at hv ⊢
      exact ht v hv
    by_cases htv : t.get v = .undefined
    · rw [htv, ConstFact.meet_undefined]
      exact hs v hsv
    · exact .meet (hs v hsv) (ht v htv)
  stay hflow h v hv := .move ((flow_forward_iff hg).mp hflow) (h v hv)
  pass {p q i s} hflow h v hv := by
    change (ConstState.transfer true i s).get v ≠ _ at hv
    change Comes g q v ((ConstState.transfer true i s).get v)
    cases hflow with
    | execute hi =>
      cases htarget : i.target? with
      | none =>
        rw [ConstState.transfer_of_target?_eq_none htarget] at hv ⊢
        exact .keep hi (h v hv)
      | some dest =>
        obtain ⟨e, hstmt⟩ := ConstState.exists_assign_of_target? htarget
        rw [ConstState.get_transfer_assign hstmt] at hv ⊢
        split_ifs at hv ⊢ with hwrites
        · obtain ⟨rfl, hvalue⟩ := hwrites
          exact .assign hi hstmt (fun w _ hw ↦ h w hw) hvalue
        · exact .keep hi (h v hv)

/-- Beside a variable that may turn out to be no constant, an instruction reads only certain
ones. -/
def Guarded (g : FlowGraph) : Prop :=
  ∀ i ∈ g.instrs, ∀ y ∈ i.reads, ∀ z ∈ i.reads, y ≠ z →
    Comes g (.before i.id) y .notConstant → Certain g (.before i.id) z

/-- In a guarded program only certain variables come to be defined. -/
theorem Comes.certain (hguarded : Guarded g) (h : Comes g q v x) : Certain g q v := by
  induction h with
  | @assign i v e s hi hstmt hs hvalue ih =>
    refine .assign hi hstmt fun z hz ↦ ?_
    by_cases hundefined : s.get z = .undefined
    · -- another operand decides the value, and that is no constant
      have hmeets : s.meetsNotConstant e = true := by
        by_contra hnot
        rw [ConstState.value_of_operand_undefined ((Instr.mem_reads_iff_of_assign hstmt).mp hz)
          hundefined (by cases e <;> rfl), if_neg hnot] at hvalue
        exact hvalue rfl
      obtain ⟨y, hy, hnotConstant⟩ := List.any_eq_true.mp hmeets
      have hfact := eq_of_beq hnotConstant
      cases y with
      | const c => cases hfact
      | var y =>
        have hread : y ∈ i.reads := (Instr.mem_reads_iff_of_assign hstmt).mpr hy
        change s.get y = .notConstant at hfact
        have hne : y ≠ z := fun heq ↦ by
          rw [heq, hundefined] at hfact
          cases hfact
        refine hguarded i hi y hread z hz hne ?_
        rw [← hfact]
        exact hs y hread (by simp [hfact])
    · exact ih z hz hundefined
  | keep hi _ ih => exact .keep hi ih
  | move hstep _ ih => exact .move hstep ih
  | meet _ _ ih _ => exact ih

section Converged

variable (hg : g.WellFormed) {c : Config} {r : Results ConstState}
  (hr : (analysis g true).solve c g = .ok r)

include hg hr

theorem get_ne_undefined_of_certain (h : Certain g q v) : (r.at q).get v ≠ .undefined :=
  h.get_ne_undefined hg (Analysis.solves_of_solve_ok hg (respectful_analysis g true) hr)

theorem comes_of_get_ne_undefined (hv : (r.at q).get v ≠ .undefined) :
    Comes g q v ((r.at q).get v) :=
  Analysis.holds_of_solve_ok (closed_comes hg) hr q v hv

theorem get_eq_undefined_iff_of_guarded (hguarded : Guarded g) :
    (r.at q).get v = .undefined ↔ ¬Certain g q v := by
  refine ⟨fun hv h ↦ get_ne_undefined_of_certain hg hr h hv, fun h ↦ ?_⟩
  by_contra hv
  exact h ((comes_of_get_ne_undefined hg hr hv).certain hguarded)

end Converged

/-- With folding, any two converged runs on a built graph define the certain variables and leave
undefined those that nothing comes to. In a guarded program nothing lies between, so they leave the
same variables undefined everywhere. -/
theorem folded_runs_define_alike {draft : Draft} (hbuild : draft.build = .ok g) {c c' : Config}
    {r r' : Results ConstState} (hr : (analysis g true).solve c g = .ok r)
    (hr' : (analysis g true).solve c' g = .ok r') :
    (∀ q v, Certain g q v → (r.at q).get v ≠ .undefined ∧ (r'.at q).get v ≠ .undefined) ∧
      (∀ q v, (¬∃ x, Comes g q v x) →
        (r.at q).get v = .undefined ∧ (r'.at q).get v = .undefined) ∧
      (Guarded g → ∀ q v, ((r.at q).get v = .undefined ↔ (r'.at q).get v = .undefined) ∧
        ((r.at q).get v = .undefined ↔ ¬Certain g q v)) := by
  have hg := draft.wellFormed_of_build hbuild
  refine ⟨fun q v h ↦ ⟨get_ne_undefined_of_certain hg hr h, get_ne_undefined_of_certain hg hr' h⟩,
    fun q v h ↦ ⟨?_, ?_⟩, fun hguarded q v ↦ ?_⟩
  · by_contra hv
    exact h ⟨_, comes_of_get_ne_undefined hg hr hv⟩
  · by_contra hv
    exact h ⟨_, comes_of_get_ne_undefined hg hr' hv⟩
  · have hundefined := get_eq_undefined_iff_of_guarded (q := q) (v := v) hg hr hguarded
    have hundefined' := get_eq_undefined_iff_of_guarded (q := q) (v := v) hg hr' hguarded
    exact ⟨hundefined.trans hundefined'.symm, hundefined⟩

/-- A sum in a loop, of a variable that a literal and a copy write and one that nothing writes. -/
def lingering : Draft where
  blocks := #[
    #[.assign 2 (.binary .add (.var 1) (.var 3)), .assign 1 (.operand (.const (.int 2))),
      .assign 1 (.operand (.var 0))],
    #[.assign 0 (.operand (.const (.int 1)))]]
  edges := #[(0, 0), (0, 1), (1, 0)]
  varNames := #["x", "y", "s", "w"]
  stray := none
  edges_nodup := by decide
  varNames_nodup := by decide

/-- The same program with a value for the variable that lacks one. -/
def supplied : Draft :=
  lingering.push 1 (.assign 3 (.operand (.const (.int 3))))

/-- Both operands of the sum are certain before it, and so is the sum after it. -/
theorem folded_runs_define_alike_supplied :
    let g := supplied.toFlowGraph
    ∃ r r', supplied.build = .ok g ∧
      (analysis g true).solve { strategy := .naive } g = .ok r ∧
      (analysis g true).solve { strategy := .worklist } g = .ok r' ∧ Guarded g ∧
      (∀ q v, (r.at q).get v = .undefined ↔ (r'.at q).get v = .undefined) ∧
      Certain g (.after 0) 2 ∧ (r.at (.after 0)).get 2 ≠ .undefined ∧
      (r'.at (.after 0)).get 2 ≠ .undefined := by
  intro g
  have hbuild : supplied.build = .ok g := rfl
  have hnaive : ((analysis g true).run { strategy := .naive } g).outcome =
      .ok ⟨.naive, 5, 10⟩ := by
    decide +kernel
  have hworklist : ((analysis g true).run { strategy := .worklist } g).outcome =
      .ok ⟨.worklist, 11, 11⟩ := by
    decide +kernel
  have hr := Analysis.solve_eq_ok_iff.mpr ⟨_, hnaive, rfl⟩
  have hr' := Analysis.solve_eq_ok_iff.mpr ⟨_, hworklist, rfl⟩
  let sum : Instr := ⟨0, .assign 2 (.binary .add (.var 1) (.var 3))⟩
  let literal : Instr := ⟨1, .assign 1 (.operand (.const (.int 2)))⟩
  let copy : Instr := ⟨2, .assign 1 (.operand (.var 0))⟩
  let supply : Instr := ⟨4, .assign 3 (.operand (.const (.int 3)))⟩
  have hy : Certain g (.before 0) 1 := by
    have hliteral : Certain g (.after 1) 1 :=
      .assign (i := literal) (by decide) rfl (List.forall_mem_nil _)
    have hcopy : Certain g (.after 2) 1 := .keep (i := copy) (by decide)
      (.move (.next (b := 0) (i := literal) (j := copy) rfl (by decide)) hliteral)
    exact .move (.first (b := 0) (i := sum) rfl rfl)
      (.move (.edge (b := 0) (by decide)) (.move (.last (i := copy) rfl rfl) hcopy))
  have hw : Certain g (.before 0) 3 := by
    have hsupply : Certain g (.after 4) 3 :=
      .assign (i := supply) (by decide) rfl (List.forall_mem_nil _)
    exact .move (.first (b := 0) (i := sum) rfl rfl)
      (.move (.edge (b := 1) (by decide)) (.move (.last (i := supply) rfl rfl) hsupply))
  have hreads : ∀ z ∈ sum.reads, Certain g (.before 0) z :=
    List.forall_mem_cons.mpr ⟨hy, List.forall_mem_singleton.mpr hw⟩
  have hsum : Certain g (.after 0) 2 := .assign (i := sum) (by decide) rfl hreads
  have hguarded : Guarded g := fun i hi y hy z hz hne _ ↦ by
    have hothers : ∀ i ∈ g.instrs, i ≠ sum → ∀ y ∈ i.reads, ∀ z ∈ i.reads, y = z := by decide
    by_cases heq : i = sum
    · subst heq
      exact hreads z hz
    · exact absurd (hothers i hi heq y hy z hz) hne
  obtain ⟨hcertain, -, hsame⟩ := folded_runs_define_alike hbuild hr hr'
  exact ⟨_, _, hbuild, hr, hr', hguarded, fun q v ↦ (hsame hguarded q v).1, hsum,
    (hcertain _ _ hsum).1, (hcertain _ _ hsum).2⟩

/-- Both solvers converge where one operand is never written. While one of them still took the other
operand for no constant, the sum was defined, and it stays defined round the loop. -/
theorem lingering_runs_differ :
    let g := lingering.toFlowGraph
    ∃ r r', lingering.build = .ok g ∧
      (analysis g true).solve { strategy := .naive } g = .ok r ∧
      (analysis g true).solve { strategy := .worklist } g = .ok r' ∧
      (r.at (.blockStart 0)).get 2 = .undefined ∧ (r'.at (.blockStart 0)).get 2 = .notConstant ∧
      (r.at (.blockEnd 0)).get 2 = .undefined ∧ (r'.at (.blockEnd 0)).get 2 = .notConstant ∧
      (r.at (.blockEnd 0)).get 1 = (r'.at (.blockEnd 0)).get 1 := by
  intro g
  have hnaive : ((analysis g true).run { strategy := .naive } g).outcome =
      .ok ⟨.naive, 4, 8⟩ := by
    decide +kernel
  have hworklist : ((analysis g true).run { strategy := .worklist } g).outcome =
      .ok ⟨.worklist, 8, 8⟩ := by
    decide +kernel
  refine ⟨_, _, rfl, Analysis.solve_eq_ok_iff.mpr ⟨_, hnaive, rfl⟩,
    Analysis.solve_eq_ok_iff.mpr ⟨_, hworklist, rfl⟩, ?_⟩
  decide +kernel

end ConstProp

end FlowFacts

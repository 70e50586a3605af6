import FlowFacts.ConstProp
import FlowFacts.Proofs.Equations

/-!
Constant states through what they say of each variable. Facts of one variable form a meet
semilattice under the undefined fact, and so do states, up to their equality. A transfer changes its
target only, and only if the value of the right-hand side is known. The laws of constant propagation
that hold without any condition follow; monotone transfer is not among them.
-/

set_option autoImplicit false
set_option relaxedAutoImplicit false

namespace FlowFacts

namespace ConstFact

@[simp] theorem undefined_meet (x : ConstFact) : undefined.meet x = x := by
  cases x <;> rfl

@[simp] theorem meet_undefined (x : ConstFact) : x.meet undefined = x := by
  cases x <;> rfl

@[simp] theorem notConstant_meet (x : ConstFact) : notConstant.meet x = notConstant := by
  cases x <;> rfl

@[simp] theorem meet_notConstant (x : ConstFact) : x.meet notConstant = notConstant := by
  cases x <;> rfl

@[simp] theorem meet_self (x : ConstFact) : x.meet x = x := by
  cases x <;> simp [meet]

theorem meet_comm (x y : ConstFact) : x.meet y = y.meet x := by
  cases x <;> cases y <;> simp only [meet]
  case constant.constant a b =>
    by_cases h : a = b
    · rw [h]
    · rw [if_neg h, if_neg (Ne.symm h)]

theorem meet_assoc (x y z : ConstFact) : (x.meet y).meet z = x.meet (y.meet z) := by
  cases x with
  | undefined => simp
  | notConstant => simp
  | constant a =>
    cases y with
    | undefined => simp
    | notConstant => simp
    | constant b =>
      cases z with
      | undefined => simp
      | notConstant => simp
      | constant c =>
        by_cases hab : a = b <;> by_cases hbc : b = c <;> simp_all [meet]

theorem meet_eq_undefined_iff {x y : ConstFact} :
    x.meet y = undefined ↔ x = undefined ∧ y = undefined := by
  cases x <;> cases y <;> simp [meet]
  split <;> simp

theorem meetLaws : MeetLaws meet :=
  .of_pointwise (fun x _ ↦ x) (by simp) (fun _ _ _ ↦ rfl) meet_comm meet_assoc meet_self

end ConstFact

namespace ConstState

instance : EquivBEq ConstState where
  rfl := beq_iff.mpr fun _ ↦ rfl
  symm h := beq_iff.mpr fun v ↦ (beq_iff.mp h v).symm
  trans h h' := beq_iff.mpr fun v ↦ (beq_iff.mp h v).trans (beq_iff.mp h' v)

variable {fold : Bool} {i : Instr} {s t : ConstState}

theorem operand_congr (h : s == t) (x : Operand) : s.operand x = t.operand x := by
  cases x with
  | var v => exact beq_iff.mp h v
  | const c => rfl

theorem value_congr (h : s == t) (e : Expr) : s.value fold e = t.value fold e := by
  cases e <;> simp [value, operand_congr h]

theorem transfer_assign {dest : Nat} {e : Expr} (hstmt : i.stmt = .assign dest e) :
    transfer fold i s =
      if s.value fold e = .undefined then s else s.set dest (s.value fold e) := by
  rw [transfer, hstmt]
  simp only [evaluate?]
  cases s.value fold e <;> simp

/-- An assignment writes the value of its right-hand side if it is known, and nothing else. -/
theorem get_transfer_assign {dest : Nat} {e : Expr} (hstmt : i.stmt = .assign dest e) (v : Nat) :
    (transfer fold i s).get v =
      if v = dest ∧ s.value fold e ≠ .undefined then s.value fold e else s.get v := by
  rw [transfer_assign hstmt]
  by_cases hvalue : s.value fold e = .undefined <;> simp [hvalue, get_set]

theorem transfer_of_target?_eq_none (h : i.target? = none) : transfer fold i s = s := by
  rw [transfer]
  cases hstmt : i.stmt with
  | assign dest e => simp [Instr.target?, hstmt] at h
  | call callee args => rfl
  | branch cond => rfl
  | jump => rfl
  | ret value => rfl

theorem exists_assign_of_target? {dest : Nat} (h : i.target? = some dest) :
    ∃ e, i.stmt = .assign dest e := by
  unfold Instr.target? at h
  split at h
  · next value hstmt =>
    obtain rfl := Option.some.inj h
    exact ⟨value, hstmt⟩
  · cases h

theorem transfer_congr (i : Instr) (h : s == t) : transfer fold i s == transfer fold i t := by
  cases htarget : i.target? with
  | none => rwa [transfer_of_target?_eq_none htarget, transfer_of_target?_eq_none htarget]
  | some dest =>
    obtain ⟨e, hstmt⟩ := exists_assign_of_target? htarget
    refine beq_iff.mpr fun v ↦ ?_
    rw [get_transfer_assign hstmt, get_transfer_assign hstmt, value_congr h, beq_iff.mp h v]

theorem meetLaws : MeetLaws meet :=
  .of_pointwise get (fun _ _ ↦ beq_iff) get_meet ConstFact.meet_comm ConstFact.meet_assoc
    ConstFact.meet_self

end ConstState

namespace ConstProp

theorem respectful_analysis (g : FlowGraph) (fold : Bool) : (analysis g fold).Respectful where
  meet_congr := ConstState.meetLaws.meet_congr
  transfer_congr := fun i _ _ h ↦ ConstState.transfer_congr i h

end ConstProp

end FlowFacts

import FlowFacts.Proofs.FoldedDefinitions

/-!
Transfers of constant propagation are monotone between states that define the same variables. They
are not monotone in general: a target is kept while the value of its right-hand side is unknown, and
what was kept need not be above the value that a lower state knows. Between states that define the
same variables, the lower one knows a value that the upper one does not only if one of its operands
is no constant. The value is then no constant either, and below whatever was kept.
-/

set_option autoImplicit false
set_option relaxedAutoImplicit false

namespace FlowFacts

namespace ConstState

variable {fold : Bool} {i : Instr} {e : Expr} {s low high : ConstState}

/-- Two states leave the same variables undefined. -/
def DefinesLike (s t : ConstState) : Prop :=
  ∀ v, s.get v = .undefined ↔ t.get v = .undefined

theorem DefinesLike.operand (h : low.DefinesLike high) (x : Operand) :
    low.operand x = .undefined ↔ high.operand x = .undefined := by
  cases x with
  | var v => exact h v
  | const c => exact Iff.rfl

/-- If the value of a tracked expression is unknown, so is one of its operands. -/
theorem exists_operand_undefined (htracked : e.isTracked fold = true)
    (hvalue : s.value fold e = .undefined) : ∃ x ∈ e.operands, s.operand x = .undefined := by
  cases fold with
  | true =>
    by_contra hknown
    exact value_ne_undefined (fun x hx hundefined ↦ hknown ⟨x, hx, hundefined⟩) hvalue
  | false =>
    cases e with
    | operand x => exact ⟨x, List.mem_singleton_self x, hvalue⟩
    | unary op x => cases htracked
    | binary op x y => cases htracked

/-- A value that is unknown in one state is unknown or no constant in every state that defines the
same variables. -/
theorem DefinesLike.value (h : low.DefinesLike high) (hvalue : high.value fold e = .undefined) :
    low.value fold e = .undefined ∨ low.value fold e = .notConstant := by
  cases htracked : e.isTracked fold with
  | false => exact Or.inl (value_of_not_isTracked htracked)
  | true =>
    obtain ⟨x, hx, hundefined⟩ := exists_operand_undefined htracked hvalue
    rw [value_of_operand_undefined hx ((h.operand x).mpr hundefined) htracked]
    split_ifs
    · exact Or.inr rfl
    · exact Or.inl rfl

theorem Below.transfer (hbelow : low.Below high) (hdefined : low.DefinesLike high) :
    (transfer fold i low).Below (transfer fold i high) := by
  cases htarget : i.target? with
  | none => rwa [transfer_of_target?_eq_none htarget, transfer_of_target?_eq_none htarget]
  | some dest =>
    obtain ⟨e, hstmt⟩ := exists_assign_of_target? htarget
    intro v
    rw [get_transfer_assign hstmt, get_transfer_assign hstmt]
    split_ifs with hlow hhigh hhigh
    · exact hbelow.value e
    -- Only the lower state writes: it knows the value, so this is no constant.
    · have hunknown : high.value fold e = .undefined := by
        by_contra hknown
        exact hhigh ⟨hlow.1, hknown⟩
      rw [(hdefined.value hunknown).resolve_left hlow.2]
      exact ConstFact.notConstant_meet _
    -- Only the upper state writes: what it knows is known below it too.
    · exact absurd ⟨hhigh.1, hbelow.value_ne_undefined hhigh.2⟩ hlow
    · exact hbelow v

theorem get_transfer_of_target?_ne {v : Nat} (h : i.target? ≠ some v) :
    (transfer fold i s).get v = s.get v := by
  cases htarget : i.target? with
  | none => rw [transfer_of_target?_eq_none htarget]
  | some dest =>
    obtain ⟨e, hstmt⟩ := exists_assign_of_target? htarget
    have hother : v ≠ dest := fun heq ↦ h (htarget.trans (congrArg some heq.symm))
    rw [get_transfer_assign hstmt, if_neg fun hwrites ↦ hother hwrites.1]

end ConstState

namespace ConstProp

open ConstState

/-- Between states that define the same variables, every transfer keeps the order of facts. From any
state, it leaves defined variables defined and changes nothing but its target. -/
theorem defined_alike_transfers_monotone (g : FlowGraph) (fold : Bool) (i : Instr) :
    (∀ low high : ConstState, (analysis g fold).Below low high → low.DefinesLike high →
      (analysis g fold).Below ((analysis g fold).transfer i low)
        ((analysis g fold).transfer i high)) ∧
    ∀ (s : ConstState) (v : Nat),
      (s.get v ≠ .undefined → ((analysis g fold).transfer i s).get v ≠ .undefined) ∧
      (i.target? ≠ some v → ((analysis g fold).transfer i s).get v = s.get v) := by
  refine ⟨fun low high hbelow hdefined ↦ ?_, fun s v ↦ ?_⟩
  · exact meet_beq_left_iff.mpr ((meet_beq_left_iff.mp hbelow).transfer hdefined)
  · exact ⟨get_transfer_ne_undefined, get_transfer_of_target?_ne⟩

/-- A quotient of a variable that only one state knows to be no constant and an undefined one. The
target is past the end of both states, and defined in the lower one afterwards. -/
theorem defined_alike_transfers_monotone_quotient :
    let a := analysis Draft.selfLoop.toFlowGraph true
    let i : Instr := ⟨0, .assign 5 (.binary .div (.var 0) (.var 1))⟩
    let low : ConstState := ⟨#[.notConstant]⟩
    let high : ConstState := ⟨#[.constant (.int 8), .undefined, .undefined]⟩
    a.Below low high ∧ low.DefinesLike high ∧ a.Below (a.transfer i low) (a.transfer i high) ∧
      low.get 0 ≠ .undefined ∧ (a.transfer i low).get 0 ≠ .undefined ∧
      i.target? ≠ some 0 ∧ (a.transfer i low).get 0 = low.get 0 ∧
      (a.transfer i low).get 5 = .notConstant ∧ (a.transfer i high).get 5 = .undefined := by
  intro a i low high
  have hbelow : a.Below low high := by
    refine meet_beq_left_iff.mpr fun v ↦ ?_
    rcases v with _ | v
    · rfl
    · rcases v with _ | _ | v <;> rfl
  have hdefined : low.DefinesLike high := by
    intro v
    rcases v with _ | v
    · decide
    · rcases v with _ | _ | v <;> exact Iff.rfl
  obtain ⟨hmono, hkeeps⟩ := defined_alike_transfers_monotone Draft.selfLoop.toFlowGraph true i
  have hget : low.get 0 ≠ .undefined := by decide
  have htarget : i.target? ≠ some 0 := by decide
  exact ⟨hbelow, hdefined, hmono low high hbelow hdefined, hget, (hkeeps low 0).1 hget, htarget,
    (hkeeps low 0).2 htarget, by decide, by decide⟩

/-- A copy whose source only the lower state defines: it writes one constant, and the upper state
keeps another. -/
example :
    let i : Instr := ⟨0, .assign 1 (.operand (.var 0))⟩
    let low : ConstState := ⟨#[.constant (.bool true), .constant (.bool false)]⟩
    let high : ConstState := ⟨#[.undefined, .constant (.bool false)]⟩
    low.meet high == low ∧
      (transfer false i low).meet (transfer false i high) != transfer false i low := by
  decide +kernel

end ConstProp

end FlowFacts

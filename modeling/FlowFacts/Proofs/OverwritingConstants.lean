import Mathlib.Data.Finset.Dedup
import FlowFacts.Proofs.ConstantStates
import FlowFacts.Proofs.Descent

/-!
Constant propagation that overwrites. Keeping what a target has while the value of its right-hand
side is unknown is not monotone: once the value is known, the target may change from one constant to
another. The analysis here writes the value whether it is known or not, which is monotone, and its
facts fall at most twice for each assignment. Where a right-hand side reads a variable that nothing
assigns, its value never becomes known except as no constant, so keeping the target is monotone and
is what this analysis does too. Along instructions that find their values known the two analyses do
the same.
-/

set_option autoImplicit false
set_option relaxedAutoImplicit false

namespace FlowFacts

namespace ConstFact

/-- One fact is below another if it is equal, the other is undefined or it is no constant. -/
theorem meet_eq_left_iff {x y : ConstFact} :
    x.meet y = x ↔ x = y ∨ y = undefined ∨ x = notConstant := by
  cases x <;> cases y <;> simp [meet]

theorem applyUnary_mono {op : UnaryOp} {x y : ConstFact} (h : x.meet y = x) :
    (x.applyUnary op).meet (y.applyUnary op) = x.applyUnary op := by
  rcases meet_eq_left_iff.mp h with rfl | rfl | rfl
  · exact meet_self _
  · exact meet_undefined _
  · exact notConstant_meet _

theorem applyBinary_eq_notConstant {op : BinaryOp} {x y : ConstFact}
    (h : x = notConstant ∨ y = notConstant) : x.applyBinary op y = notConstant := by
  rcases h with rfl | rfl
  · cases y <;> rfl
  · cases x <;> rfl

theorem applyBinary_eq_undefined {op : BinaryOp} {x y : ConstFact}
    (h : x = undefined ∨ y = undefined) (hx : x ≠ notConstant) (hy : y ≠ notConstant) :
    x.applyBinary op y = undefined := by
  rcases h with rfl | rfl
  · cases y <;> first | rfl | exact absurd rfl hy
  · cases x <;> first | rfl | exact absurd rfl hx

theorem applyBinary_mono {op : BinaryOp} {x x' y y' : ConstFact} (hx : x.meet x' = x)
    (hy : y.meet y' = y) :
    (x.applyBinary op y).meet (x'.applyBinary op y') = x.applyBinary op y := by
  by_cases hnot : x = notConstant ∨ y = notConstant
  · rw [applyBinary_eq_notConstant hnot, notConstant_meet]
  · obtain ⟨hxn, hyn⟩ := not_or.mp hnot
    -- Neither upper operand is `notConstant`: what is below it would be `notConstant` too.
    have hx' : x = x' ∨ x' = undefined := by
      rcases meet_eq_left_iff.mp hx with h | h | h
      · exact Or.inl h
      · exact Or.inr h
      · exact absurd h hxn
    have hy' : y = y' ∨ y' = undefined := by
      rcases meet_eq_left_iff.mp hy with h | h | h
      · exact Or.inl h
      · exact Or.inr h
      · exact absurd h hyn
    rcases hx' with rfl | rfl
    · rcases hy' with rfl | rfl
      · exact meet_self _
      · rw [applyBinary_eq_undefined (Or.inr rfl) hxn (by simp), meet_undefined]
    · have hyn' : y' ≠ notConstant := by
        rcases hy' with rfl | rfl
        · exact hyn
        · simp
      rw [applyBinary_eq_undefined (Or.inl rfl) (by simp) hyn', meet_undefined]

/-- How often the fact of one variable can still fall. -/
def room : ConstFact → Nat
  | undefined => 2
  | constant _ => 1
  | notConstant => 0

theorem room_le {x y : ConstFact} (h : x.meet y = x) : x.room ≤ y.room := by
  rcases meet_eq_left_iff.mp h with rfl | rfl | rfl
  · exact Nat.le_refl _
  · cases x <;> simp [room]
  · exact Nat.zero_le _

theorem room_lt {x y : ConstFact} (h : x.meet y = x) (hne : x ≠ y) : x.room < y.room := by
  rcases meet_eq_left_iff.mp h with rfl | rfl | rfl
  · exact absurd rfl hne
  · cases x <;> simp_all [room]
  · cases y <;> simp_all [room]

end ConstFact

/-- Nothing assigns the variable. -/
def FlowGraph.neverAssigned (g : FlowGraph) (v : Nat) : Bool :=
  !g.instrs.any fun i ↦ i.target? == some v

theorem FlowGraph.neverAssigned_iff {g : FlowGraph} {v : Nat} :
    g.neverAssigned v = true ↔ ∀ i ∈ g.instrs, i.target? ≠ some v := by
  simp [neverAssigned]

/-- The analysis looks at the right-hand side. -/
def Expr.isTracked (fold : Bool) : Expr → Bool
  | operand _ => true
  | unary _ _ => fold
  | binary _ _ _ => fold

namespace ConstState

/-- The state says of every variable no more than another one. -/
def Below (s t : ConstState) : Prop :=
  ∀ v, (s.get v).meet (t.get v) = s.get v

variable {g : FlowGraph} {fold : Bool} {i : Instr} {s t : ConstState}

theorem meet_beq_left_iff : (s.meet t == s) = true ↔ s.Below t := by
  simp only [beq_iff, get_meet, Below]

theorem Below.operand (h : s.Below t) (x : Operand) :
    (s.operand x).meet (t.operand x) = s.operand x := by
  cases x with
  | var v => exact h v
  | const c => exact ConstFact.meet_self _

theorem Below.value (h : s.Below t) (e : Expr) :
    (s.value fold e).meet (t.value fold e) = s.value fold e := by
  cases e with
  | operand x => exact h.operand x
  | unary op x =>
    simp only [ConstState.value]
    split_ifs
    · exact ConstFact.applyUnary_mono (h.operand x)
    · rfl
  | binary op x y =>
    simp only [ConstState.value]
    split_ifs
    · exact ConstFact.applyBinary_mono (h.operand x) (h.operand y)
    · rfl

/-- Below a known value there is a known value. -/
theorem Below.value_ne_undefined (h : s.Below t) {e : Expr} (ht : t.value fold e ≠ .undefined) :
    s.value fold e ≠ .undefined := fun hs ↦ by
  have hvalue : (s.value fold e).meet (t.value fold e) = s.value fold e := h.value e
  rw [hs, ConstFact.undefined_meet] at hvalue
  exact ht hvalue

theorem set_mono {v : Nat} {x y : ConstFact} (h : s.Below t) (hxy : x.meet y = x) :
    (s.set v x).Below (t.set v y) := by
  intro w
  rw [get_set, get_set]
  split_ifs
  · exact hxy
  · exact h w

/-- Some operand is known to be no constant. -/
def meetsNotConstant (s : ConstState) (e : Expr) : Bool :=
  e.operands.any fun x ↦ s.operand x == .notConstant

theorem meetsNotConstant_of_below (h : s.Below t) {e : Expr} (ht : t.meetsNotConstant e = true) :
    s.meetsNotConstant e = true := by
  obtain ⟨x, hx, hnot⟩ := List.any_eq_true.mp ht
  refine List.any_eq_true.mpr ⟨x, hx, ?_⟩
  have hbelow := h.operand x
  rw [eq_of_beq hnot, ConstFact.meet_notConstant] at hbelow
  exact beq_iff_eq.mpr hbelow.symm

/-- Writes the value of a tracked right-hand side, known or not. -/
def overwrite (g : FlowGraph) (fold : Bool) (i : Instr) (s : ConstState) : ConstState :=
  match i.stmt with
  | .assign dest e =>
    if e.isTracked fold then
      if i.reads.any g.neverAssigned then
        if s.meetsNotConstant e then s.set dest .notConstant else s
      else s.set dest (s.value fold e)
    else s
  | _ => s

theorem overwrite_mono (h : s.Below t) : (s.overwrite g fold i).Below (t.overwrite g fold i) := by
  unfold overwrite
  split
  case h_1 dest e _ =>
    split_ifs with htracked hreads hs ht ht
    · exact set_mono h (ConstFact.meet_self _)
    · intro v
      rw [get_set]
      split_ifs
      · exact ConstFact.notConstant_meet _
      · exact h v
    · exact absurd (meetsNotConstant_of_below h ht) hs
    · exact h
    · exact set_mono h (h.value e)
    · exact h
  case h_2 => exact h

/-- The assignment finds the value of its right-hand side known, or never will, or is not looked
at. -/
def finds (g : FlowGraph) (fold : Bool) (s : ConstState) (i : Instr) : Bool :=
  match i.stmt with
  | .assign _ e =>
    !e.isTracked fold || i.reads.any g.neverAssigned || s.value fold e != .undefined
  | _ => true

theorem finds_of_below (h : s.Below t) (ht : t.finds g fold i = true) :
    s.finds g fold i = true := by
  unfold finds at ht ⊢
  split at ht
  case h_1 dest e hstmt =>
    simp only [Bool.or_eq_true, bne_iff_ne] at ht ⊢
    rcases ht with ht | ht
    · exact Or.inl ht
    · exact Or.inr (h.value_ne_undefined ht)
  case h_2 => rfl

theorem value_of_not_isTracked {e : Expr} (h : e.isTracked fold = false) :
    s.value fold e = .undefined := by
  cases e <;> simp_all [Expr.isTracked, value]

/-- An operand that is not known leaves the value unknown, unless another one decides it. -/
theorem value_of_operand_undefined {e : Expr} {x : Operand} (hx : x ∈ e.operands)
    (hundefined : s.operand x = .undefined) (htracked : e.isTracked fold = true) :
    s.value fold e = if s.meetsNotConstant e then .notConstant else .undefined := by
  cases e with
  | operand y =>
    obtain rfl : x = y := by simpa [Expr.operands] using hx
    simp [value, meetsNotConstant, Expr.operands, hundefined]
  | unary op y =>
    obtain rfl : x = y := by simpa [Expr.operands] using hx
    obtain rfl : fold = true := htracked
    simp [value, meetsNotConstant, Expr.operands, hundefined, ConstFact.applyUnary]
  | binary op y z =>
    obtain rfl : fold = true := htracked
    have hyz : s.operand y = .undefined ∨ s.operand z = .undefined := by
      have hmem : x = y ∨ x = z := by simpa [Expr.operands] using hx
      rcases hmem with rfl | rfl
      · exact Or.inl hundefined
      · exact Or.inr hundefined
    simp only [value, if_true, meetsNotConstant, Expr.operands, List.any_cons, List.any_nil,
      Bool.or_false, Bool.or_eq_true, beq_iff_eq]
    split_ifs with hnot
    · exact ConstFact.applyBinary_eq_notConstant hnot
    · obtain ⟨hy, hz⟩ := not_or.mp hnot
      exact ConstFact.applyBinary_eq_undefined hyz hy hz

/-- Variables that nothing assigns are undefined. -/
def InputsUndefined (g : FlowGraph) (s : ConstState) : Prop :=
  ∀ v, g.neverAssigned v = true → s.get v = .undefined

/-- Where the values are found and the variables that nothing assigns are undefined, keeping and
overwriting are the same. -/
theorem transfer_eq_overwrite (hfinds : s.finds g fold i = true) (hinputs : s.InputsUndefined g) :
    transfer fold i s = s.overwrite g fold i := by
  cases hstmt : i.stmt with
  | assign dest e =>
    rw [transfer_assign hstmt, overwrite, hstmt]
    simp only
    cases htracked : e.isTracked fold with
    | false => simp [value_of_not_isTracked htracked]
    | true =>
      rw [if_pos rfl]
      cases hreads : i.reads.any g.neverAssigned with
      | true =>
        obtain ⟨v, hv, hnever⟩ := List.any_eq_true.mp hreads
        have hoperand : Operand.var v ∈ e.operands := by
          rw [Instr.reads, hstmt] at hv
          obtain ⟨x, hx, hvar⟩ := List.mem_filterMap.mp hv
          cases x with
          | var w => exact Option.some.inj hvar ▸ hx
          | const c => cases hvar
        rw [value_of_operand_undefined hoperand (hinputs v hnever) htracked]
        cases s.meetsNotConstant e <;> simp
      | false =>
        have hknown : s.value fold e ≠ .undefined := by
          simpa [finds, hstmt, htracked, hreads] using hfinds
        rw [if_neg hknown]
        simp
  | call callee args => simp [transfer, overwrite, hstmt]
  | branch cond => simp [transfer, overwrite, hstmt]
  | jump => simp [transfer, overwrite, hstmt]
  | ret value => simp [transfer, overwrite, hstmt]

theorem inputsUndefined_overwrite (hi : i ∈ g.instrs) (h : s.InputsUndefined g) :
    (s.overwrite g fold i).InputsUndefined g := by
  have hset : ∀ {dest : Nat} {e : Expr} (x : ConstFact), i.stmt = .assign dest e →
      (s.set dest x).InputsUndefined g := by
    intro dest e x hstmt v hv
    have hne : v ≠ dest := by
      rintro rfl
      exact FlowGraph.neverAssigned_iff.mp hv i hi (by simp [Instr.target?, hstmt])
    rw [get_set, if_neg hne]
    exact h v hv
  unfold overwrite
  split
  case h_1 dest e hstmt =>
    split_ifs
    · exact hset _ hstmt
    · exact h
    · exact hset _ hstmt
    · exact h
  case h_2 => exact h

end ConstState

namespace ConstProp

open ConstState

/-- Constant propagation with transfers that overwrite. -/
def overwriting (g : FlowGraph) (fold : Bool) : Analysis ConstState :=
  { analysis g fold with transfer := fun i s ↦ s.overwrite g fold i }

variable {g : FlowGraph} {fold : Bool}

@[simp] theorem overwriting_initial : (overwriting g fold).initial = .new g.varCount := rfl

@[simp] theorem overwriting_meet (s t : ConstState) :
    (overwriting g fold).meet s t = s.meet t := rfl

@[simp] theorem overwriting_transfer (i : Instr) (s : ConstState) :
    (overwriting g fold).transfer i s = s.overwrite g fold i := rfl

theorem below_overwriting_iff {s t : ConstState} :
    (overwriting g fold).Below s t ↔ s.Below t :=
  meet_beq_left_iff

theorem lawful_overwriting (g : FlowGraph) (fold : Bool) : (overwriting g fold).Lawful := by
  have hmono : ∀ (i : Instr) {s t : ConstState}, (overwriting g fold).Below s t →
      (overwriting g fold).Below (s.overwrite g fold i) (t.overwrite g fold i) := fun i s t h ↦
    below_overwriting_iff.mpr (overwrite_mono (below_overwriting_iff.mp h))
  have hbelow : ∀ {s t : ConstState}, s == t → s.Below t := fun h v ↦ by
    rw [beq_iff.mp h v, ConstFact.meet_self]
  refine { meetLaws with
    transfer_congr := fun i {s t} h ↦ ?_, initial_meet := fun s ↦ ?_, transfer_mono := hmono }
  -- Equal states are below each other, so monotone transfers keep them equal.
  · have hst : (s.overwrite g fold i).Below (t.overwrite g fold i) := overwrite_mono (hbelow h)
    have hts : (t.overwrite g fold i).Below (s.overwrite g fold i) :=
      overwrite_mono (hbelow (BEq.symm h))
    refine beq_iff.mpr fun v ↦ ?_
    rw [overwriting_transfer, overwriting_transfer, ← hst v, ConstFact.meet_comm, hts v]
  · exact beq_iff.mpr fun v ↦ by simp

theorem closed_inputsUndefined (g : FlowGraph) (fold : Bool) :
    (overwriting g fold).Closed g fun _ s ↦ s.InputsUndefined g where
  initial _ v _ := get_new g.varCount v
  meet hs ht v hv := by
    rw [overwriting_meet, get_meet, hs v hv, ht v hv, ConstFact.meet_self]
  stay _ h := h
  pass hflow h := by
    cases hflow with
    | execute hi => exact inputsUndefined_overwrite hi h

/-- The variables that are assigned somewhere. -/
def assigned (g : FlowGraph) : Finset Nat :=
  (g.instrs.filterMap Instr.target?).toFinset

theorem notMem_assigned_iff {v : Nat} : v ∉ assigned g ↔ g.neverAssigned v = true := by
  simp [assigned, FlowGraph.neverAssigned_iff]

/-- How often the facts of a state can still fall. -/
def room (g : FlowGraph) (s : ConstState) : Nat :=
  ∑ v ∈ assigned g, (s.get v).room

theorem finiteFall_room (g : FlowGraph) (fold : Bool) :
    (overwriting g fold).FiniteFall (InputsUndefined g) (room g) := by
  refine ⟨fun _ _ hbelow ↦ ?_, fun {s t} hs ht hbelow hne ↦ ?_⟩
  · exact Finset.sum_le_sum fun v _ ↦ ConstFact.room_le (below_overwriting_iff.mp hbelow v)
  · have hbelow := below_overwriting_iff.mp hbelow
    obtain ⟨v, hv⟩ := not_forall.mp (mt beq_iff.mpr hne)
    have hmem : v ∈ assigned g := by
      by_contra hnot
      have hnever := notMem_assigned_iff.mp hnot
      exact hv ((hs v hnever).trans (ht v hnever).symm)
    exact Finset.sum_lt_sum (fun w _ ↦ ConstFact.room_le (hbelow w))
      ⟨v, hmem, ConstFact.room_lt (hbelow v) hv⟩

theorem room_initial (g : FlowGraph) : room g (.new g.varCount) = 2 * (assigned g).card := by
  simp [room, ConstFact.room, mul_comm]

end ConstProp

end FlowFacts

import Mathlib.Algebra.Group.Int.Defs
import FlowFacts.Operator

/-!
Operators on constants. Sums, differences and products of integers are exact, and missing where the
exact integer needs more than 64 bits. Quotient and remainder are missing together, by zero and
where the quotient overflows, and otherwise make up the dividend with a remainder that is smaller
than the divisor and has the sign of the dividend. Comparisons come in opposite pairs. Operands of
different kinds, or of a kind that an operator has no meaning for, give nothing; every other gap is
one of integer arithmetic.
-/

set_option autoImplicit false
set_option relaxedAutoImplicit false

namespace FlowFacts

namespace Const

/-! ### Integers of 64 bits -/

/-- The integer is one of 64 bits. -/
def InRange (n : Int) : Prop :=
  -2 ^ 63 ≤ n ∧ n < 2 ^ 63

theorem inRange_toInt (a : Int64) : InRange a.toInt :=
  ⟨a.le_toInt, a.toInt_lt⟩

theorem inRange_iff {n : Int} :
    InRange n ↔ Int64.minValue.toInt ≤ n ∧ n ≤ Int64.maxValue.toInt := by
  rw [Int64.toInt_minValue, Int64.toInt_maxValue, InRange]
  omega

theorem ofInt?_eq_none_iff {n : Int} : ofInt? n = none ↔ ¬InRange n := by
  rw [ofInt?, inRange_iff]
  split
  · next h => exact iff_of_false (Option.some_ne_none _) (not_not_intro h)
  · next h => exact iff_of_true rfl h

theorem ofInt?_eq_some_iff {n : Int} {c : Int64} : ofInt? n = some (int c) ↔ c.toInt = n := by
  by_cases h : InRange n
  · rw [ofInt?, if_pos (inRange_iff.mp h), Option.some_inj, int.injEq]
    constructor
    · rintro rfl
      exact Int64.toInt_ofInt_of_le h.1 h.2
    · rintro rfl
      exact c.ofInt_toInt
  · refine iff_of_false ?_ ?_
    · rw [ofInt?_eq_none_iff.mpr h]
      exact nofun
    · rintro rfl
      exact h (inRange_toInt c)

theorem exists_ofInt?_eq_some {n : Int} (h : InRange n) :
    ∃ c : Int64, ofInt? n = some (int c) ∧ c.toInt = n :=
  have hvalue := Int64.toInt_ofInt_of_le h.1 h.2
  ⟨Int64.ofInt n, ofInt?_eq_some_iff.mpr hvalue, hvalue⟩

/-- The result is the constant of the integer `n`, and missing where 64 bits do not hold it. -/
structure Exactly (result : Option Const) (n : Int) : Prop where
  eq_some_iff : ∀ c : Int64, result = some (int c) ↔ c.toInt = n
  eq_none_iff : result = none ↔ ¬InRange n

theorem exactly_ofInt? (n : Int) : Exactly (ofInt? n) n :=
  ⟨fun _ ↦ ofInt?_eq_some_iff, ofInt?_eq_none_iff⟩

/-! ### Division -/

/-- Rounded toward zero, only the quotient of the least integer by minus one is out of range. -/
theorem inRange_tdiv_iff {a b : Int} (ha : InRange a) (hb : b ≠ 0) :
    InRange (a.tdiv b) ↔ ¬(a = -2 ^ 63 ∧ b = -1) := by
  unfold InRange at ha ⊢
  by_cases hneg : b = -1
  · rw [hneg, Int.tdiv_neg, Int.tdiv_one]
    omega
  · by_cases hone : b = 1
    · rw [hone, Int.tdiv_one]
      omega
    · -- any other divisor halves the dividend at least
      have hhalf : (a.tdiv b).natAbs ≤ a.natAbs / 2 := by
        rw [Int.natAbs_tdiv]
        exact Nat.div_le_div_left (by omega) (by decide)
      omega

theorem natAbs_tmod_lt {a b : Int} (hb : b ≠ 0) : (a.tmod b).natAbs < b.natAbs := by
  rw [Int.natAbs_tmod]
  exact Nat.mod_lt _ (Int.natAbs_pos.mpr hb)

theorem inRange_tmod {a b : Int} (hb : InRange b) (hne : b ≠ 0) : InRange (a.tmod b) := by
  have hlt := natAbs_tmod_lt (a := a) hne
  unfold InRange at hb ⊢
  omega

theorem tmod_eq_zero_or_sign (a b : Int) : a.tmod b = 0 ∨ (a.tmod b).sign = a.sign := by
  by_cases hdvd : b ∣ a
  · exact Or.inl (Int.tmod_eq_zero_of_dvd hdvd)
  · exact Or.inr (by rw [Int.sign_tmod, if_neg hdvd])

/-- The division is neither by zero nor the one that overflows. -/
def Divisible (a b : Int64) : Prop :=
  b ≠ 0 ∧ ¬(a = Int64.minValue ∧ b = -1)

theorem divisible_iff {a b : Int64} :
    Divisible a b ↔ b.toInt ≠ 0 ∧ InRange (a.toInt.tdiv b.toInt) := by
  have hmin : a = Int64.minValue ↔ a.toInt = -2 ^ 63 := by
    rw [← Int64.toInt_inj, Int64.toInt_minValue]
  have hminus : b = -1 ↔ b.toInt = -1 := Int64.toInt_inj.symm
  have hzero : b = 0 ↔ b.toInt = 0 := Int64.toInt_inj.symm
  rw [Divisible, hmin, hminus, Ne, hzero]
  exact and_congr_right fun hb ↦ (inRange_tdiv_iff (inRange_toInt a) hb).symm

/-- Quotient and remainder are both there or both missing. Where they are there, they make up the
dividend, and the remainder is smaller than the divisor and has the sign of the dividend. -/
structure DivideExactly (a b : Int64) (quotient remainder : Option Const) : Prop where
  of_divisible : Divisible a b → ∃ q r : Int64,
    quotient = some (int q) ∧ remainder = some (int r) ∧
      a.toInt = q.toInt * b.toInt + r.toInt ∧ r.toInt.natAbs < b.toInt.natAbs ∧
      (r = 0 ∨ r.toInt.sign = a.toInt.sign)
  of_not_divisible : ¬Divisible a b → quotient = none ∧ remainder = none

theorem divideExactly (a b : Int64) :
    DivideExactly a b (BinaryOp.quotient? a.toInt b.toInt)
      (BinaryOp.remainder? a.toInt b.toInt) := by
  refine ⟨fun h ↦ ?_, fun h ↦ ?_⟩
  · obtain ⟨hb, hquotient⟩ := divisible_iff.mp h
    obtain ⟨q, hq, hqvalue⟩ := exists_ofInt?_eq_some hquotient
    obtain ⟨r, hr, hrvalue⟩ :=
      exists_ofInt?_eq_some (inRange_tmod (a := a.toInt) (inRange_toInt b) hb)
    have hdiv : BinaryOp.quotient? a.toInt b.toInt = some (int q) := by
      rw [BinaryOp.quotient?, if_neg hb, hq]
    refine ⟨q, r, hdiv, by rw [BinaryOp.remainder?, hdiv, Option.bind_some, hr], ?_, ?_, ?_⟩
    · rw [hqvalue, hrvalue, Int.mul_comm, Int.mul_tdiv_add_tmod]
    · rw [hrvalue]
      exact natAbs_tmod_lt hb
    · have hzero : r = 0 ↔ r.toInt = 0 := Int64.toInt_inj.symm
      rw [hzero, hrvalue]
      exact tmod_eq_zero_or_sign a.toInt b.toInt
  · have hdiv : BinaryOp.quotient? a.toInt b.toInt = none := by
      rw [BinaryOp.quotient?]
      split
      · rfl
      · next hb =>
        exact ofInt?_eq_none_iff.mpr fun hquotient ↦ h (divisible_iff.mpr ⟨hb, hquotient⟩)
    exact ⟨hdiv, by rw [BinaryOp.remainder?, hdiv, Option.bind_none]⟩

/-! ### Kinds of operands -/

inductive Kind where
  | int
  | bool
  | str
  deriving DecidableEq

def kind : Const → Kind
  | int _ => .int
  | bool _ => .bool
  | str _ => .str

/-- Both results are missing, or they are opposite truth values. -/
def Opposite (x y : Option Const) : Prop :=
  (x = none ∧ y = none) ∨ ∃ t, x = some (bool t) ∧ y = some (bool !t)

theorem opposite_decide {p q : Prop} [Decidable p] [Decidable q] (h : q ↔ ¬p) :
    Opposite (some (bool p)) (some (bool q)) := by
  refine Or.inr ⟨decide p, rfl, ?_⟩
  rw [← decide_not, decide_eq_decide.mpr h]

end Const

namespace BinaryOp

open FlowFacts.Const

/-- The kinds of constants that an operator takes on both sides. -/
def kinds : BinaryOp → List Kind
  | add => [.int, .str]
  | sub | mul | div | mod | lt | le | gt | ge => [.int]
  | eq | ne => [.int, .bool, .str]
  | and | or => [.bool]

/-- The operands are of one kind, which the operator takes. -/
def Accepts (op : BinaryOp) (a b : Const) : Prop :=
  a.kind = b.kind ∧ a.kind ∈ op.kinds

def isArithmetic (op : BinaryOp) : Bool :=
  op matches add | sub | mul | div | mod

variable {op : BinaryOp} {a b : Const}

theorem apply_of_not_accepts (h : ¬op.Accepts a b) : op.apply a b = none := by
  unfold Accepts at h
  -- every operator with every pair of kinds: those that it takes contradict `h`
  cases op <;> cases a <;> cases b <;> simp_all [kinds, kind, apply, sameKind]

theorem isArithmetic_of_apply_eq_none (h : op.Accepts a b) (hnone : op.apply a b = none) :
    op.isArithmetic = true ∧ a.kind = .int := by
  unfold Accepts at h
  cases op <;> cases a <;> cases b <;> simp_all [kinds, kind, apply, sameKind, isArithmetic]

/-- Operators of integers alone are opposite if they are so on integers. -/
theorem opposite_of_kinds_eq {op op' : BinaryOp} (hop : op.kinds = [.int])
    (hop' : op'.kinds = [.int])
    (hint : ∀ m n : Int64, Opposite (op.apply (.int m) (.int n)) (op'.apply (.int m) (.int n)))
    (a b : Const) : Opposite (op.apply a b) (op'.apply a b) := by
  by_cases h : op.Accepts a b
  · obtain ⟨hkind, hmem⟩ := h
    rw [hop, List.mem_singleton] at hmem
    cases a with
    | int m =>
      cases b with
      | int n => exact hint m n
      | _ => cases hkind
    | _ => cases hmem
  · have h' : ¬op'.Accepts a b := by rwa [Accepts, hop', ← hop]
    exact Or.inl ⟨apply_of_not_accepts h, apply_of_not_accepts h'⟩

theorem opposite_lt_ge (a b : Const) : Opposite (lt.apply a b) (ge.apply a b) := by
  refine opposite_of_kinds_eq rfl rfl (fun m n ↦ ?_) a b
  exact opposite_decide Int.not_lt.symm

theorem opposite_le_gt (a b : Const) : Opposite (le.apply a b) (gt.apply a b) := by
  refine opposite_of_kinds_eq rfl rfl (fun m n ↦ ?_) a b
  exact opposite_decide Int.not_le.symm

theorem opposite_eq_ne (a b : Const) : Opposite (eq.apply a b) (ne.apply a b) := by
  by_cases h : a.sameKind b = true
  · have heq : eq.apply a b = some (.bool (a = b)) := if_pos h
    have hne : ne.apply a b = some (.bool (a ≠ b)) := if_pos h
    rw [heq, hne]
    exact opposite_decide Iff.rfl
  · exact Or.inl ⟨if_neg h, if_neg h⟩

theorem neg_eq_sub_zero (a : Int64) :
    UnaryOp.neg.apply (.int a) = sub.apply (.int 0) (.int a) := by
  have hzero : (0 : Int64).toInt = 0 := rfl
  rw [UnaryOp.apply, apply, hzero, Int.zero_sub]

/-- Constants are evaluated exactly: the arithmetic of integers as far as 64 bits hold its results,
comparisons in opposite pairs, and nothing for operands that an operator does not take. Only integer
arithmetic leaves operands that it takes without a result. -/
theorem constants_evaluate_exactly :
    (∀ a b : Int64,
      Exactly (add.apply (.int a) (.int b)) (a.toInt + b.toInt) ∧
      Exactly (sub.apply (.int a) (.int b)) (a.toInt - b.toInt) ∧
      Exactly (mul.apply (.int a) (.int b)) (a.toInt * b.toInt) ∧
      DivideExactly a b (div.apply (.int a) (.int b)) (mod.apply (.int a) (.int b)) ∧
      UnaryOp.neg.apply (.int a) = sub.apply (.int 0) (.int a)) ∧
    (∀ a b : Const,
      Opposite (lt.apply a b) (ge.apply a b) ∧
      Opposite (le.apply a b) (gt.apply a b) ∧
      Opposite (eq.apply a b) (ne.apply a b)) ∧
    ∀ (op : BinaryOp) (a b : Const),
      (¬op.Accepts a b → op.apply a b = none) ∧
      (op.Accepts a b → op.apply a b = none → op.isArithmetic = true ∧ a.kind = .int) := by
  refine ⟨fun a b ↦ ⟨?_, ?_, ?_, ?_, neg_eq_sub_zero a⟩, fun a b ↦ ?_, fun op a b ↦ ?_⟩
  · exact exactly_ofInt? (a.toInt + b.toInt)
  · exact exactly_ofInt? (a.toInt - b.toInt)
  · exact exactly_ofInt? (a.toInt * b.toInt)
  · exact divideExactly a b
  · exact ⟨opposite_lt_ge a b, opposite_le_gt a b, opposite_eq_ne a b⟩
  · exact ⟨apply_of_not_accepts, isArithmetic_of_apply_eq_none⟩

/-- The least integer has no negation and no quotient by minus one, though it is a product; a
negative dividend leaves a negative remainder. -/
theorem constants_evaluate_exactly_extremes :
    UnaryOp.neg.apply (.int Int64.minValue) = none ∧
      div.apply (.int Int64.minValue) (.int (-1)) = none ∧
      mod.apply (.int Int64.minValue) (.int (-1)) = none ∧
      mul.apply (.int (-4294967296)) (.int 2147483648) = some (.int Int64.minValue) ∧
      mul.apply (.int 4294967296) (.int 2147483648) = none ∧
      (∃ q r : Int64, div.apply (.int (-7)) (.int 2) = some (.int q) ∧
        mod.apply (.int (-7)) (.int 2) = some (.int r) ∧ -7 = q.toInt * 2 + r.toInt ∧
        r.toInt.natAbs < 2 ∧ (r = 0 ∨ r.toInt.sign = -1)) ∧
      add.apply (.int 1) (.str "1") = none := by
  obtain ⟨hints, -, hkinds⟩ := constants_evaluate_exactly
  obtain ⟨-, -, -, hleast, hneg⟩ := hints Int64.minValue (-1)
  have hmissing := hleast.of_not_divisible fun h ↦ h.2 ⟨rfl, rfl⟩
  have hminus := (hints 0 Int64.minValue).2.1
  have hproduct := (hints (-4294967296) 2147483648).2.2.1
  have hlarge := (hints 4294967296 2147483648).2.2.1
  refine ⟨?_, hmissing.1, hmissing.2, ?_, ?_, ?_, (hkinds add (.int 1) (.str "1")).1 ?_⟩
  · rw [hneg]
    exact hminus.eq_none_iff.mpr fun h ↦ absurd h.2 (by decide)
  · exact (hproduct.eq_some_iff Int64.minValue).mpr (by decide)
  · exact hlarge.eq_none_iff.mpr fun h ↦ absurd h.2 (by decide)
  · exact (hints (-7) 2).2.2.2.1.of_divisible ⟨by decide, fun h ↦ absurd h.1 (by decide)⟩
  · exact fun h ↦ absurd h.1 (by decide)

end BinaryOp

end FlowFacts

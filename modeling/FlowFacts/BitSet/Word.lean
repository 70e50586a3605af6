/-!
Words of 64 bits, and loops over lists of them. Taking away the lowest set bit again and again goes
through the set bits of a word in ascending order. A loop over words replaces them one by one and
keeps a flag that says whether one of them changed.
-/

set_option autoImplicit false
set_option relaxedAutoImplicit false

namespace FlowFacts.BitSet

/-! ### Bits of a word -/

/-- The set bit `k` of a word. -/
def bit (k : Nat) : UInt64 :=
  UInt64.ofNat (1 <<< k)

/-- The number of set bits. -/
def ones (w : UInt64) : Nat :=
  (List.range 64).countP w.toNat.testBit

/-- The number of clear bits below the lowest set bit, 64 for the word without one. -/
def trailingZeros (w : UInt64) : Nat :=
  (List.range 64).findIdx w.toNat.testBit

/-- The set bits in ascending order. -/
def bits (w : UInt64) : List Nat :=
  (List.range 64).filter w.toNat.testBit

theorem word_ext {a b : UInt64} (h : ∀ j < 64, a.toNat.testBit j = b.toNat.testBit j) : a = b := by
  apply UInt64.toNat_inj.mp
  apply Nat.eq_of_testBit_eq
  intro j
  by_cases hj : j < 64
  · exact h j hj
  · have hpow : 2 ^ 64 ≤ 2 ^ j := Nat.pow_le_pow_right (by decide) (Nat.not_lt.mp hj)
    rw [Nat.testBit_lt_two_pow (Nat.lt_of_lt_of_le a.toNat_lt hpow),
      Nat.testBit_lt_two_pow (Nat.lt_of_lt_of_le b.toNat_lt hpow)]

theorem toNat_bit {k : Nat} (hk : k < 64) : (bit k).toNat = 1 <<< k := by
  have h : 1 <<< k < 2 ^ 64 := by
    rw [Nat.one_shiftLeft]
    exact Nat.pow_lt_pow_right (by decide) hk
  rw [bit, UInt64.toNat_ofNat', Nat.mod_eq_of_lt h]

theorem testBit_bit {k : Nat} (hk : k < 64) (j : Nat) :
    (bit k).toNat.testBit j = decide (k = j) := by
  rw [toNat_bit hk, Nat.one_shiftLeft, Nat.testBit_two_pow]

theorem toNat_sub_one {w : UInt64} (h : w.toNat ≠ 0) : (w - 1).toNat = w.toNat - 1 := by
  refine UInt64.toNat_sub_of_le w 1 (UInt64.le_iff_toNat_le.mpr ?_)
  exact Nat.one_le_iff_ne_zero.mpr h

/-- One less than a set bit are all bits below it. -/
theorem testBit_bit_sub_one {k : Nat} (hk : k < 64) (j : Nat) :
    (bit k - 1).toNat.testBit j = decide (j < k) := by
  have hbit := toNat_bit hk
  rw [Nat.one_shiftLeft] at hbit
  have hne : (bit k).toNat ≠ 0 := by
    rw [hbit]
    exact Nat.ne_of_gt (Nat.pow_pos (by decide))
  rw [toNat_sub_one hne, hbit, Nat.testBit_two_pow_sub_one]

theorem testBit_not (w : UInt64) {j : Nat} (hj : j < 64) :
    (~~~w).toNat.testBit j = !w.toNat.testBit j := by
  have h : (~~~w).toNat = 2 ^ 64 - (w.toNat + 1) := by
    rw [UInt64.toNat_not, UInt64.size]
    omega
  rw [h, Nat.testBit_two_pow_sub_succ w.toNat_lt]
  simp [hj]

theorem eq_zero_iff {w : UInt64} : w = 0 ↔ ∀ j < 64, w.toNat.testBit j = false := by
  constructor
  · rintro rfl j -
    exact Nat.zero_testBit j
  · intro h
    refine word_ext fun j hj ↦ ?_
    rw [h j hj]
    exact (Nat.zero_testBit j).symm

/-- A word masked by one bit shows whether that bit is set. -/
theorem and_bit_bne_zero (w : UInt64) {k : Nat} (hk : k < 64) :
    (w &&& bit k != 0) = w.toNat.testBit k := by
  rw [Bool.eq_iff_iff, bne_iff_ne, Ne, eq_zero_iff]
  simp only [UInt64.toNat_and, Nat.testBit_and, testBit_bit hk]
  constructor
  · intro h
    refine Bool.of_not_eq_false fun hclear ↦ h fun j _ ↦ ?_
    by_cases hkj : k = j
    · rw [← hkj, hclear, Bool.false_and]
    · rw [decide_eq_false hkj, Bool.and_false]
  · intro hset h
    have hk' := h k hk
    rw [hset, decide_eq_true rfl] at hk'
    exact absurd hk' (by decide)

/-! ### The lowest set bit -/

theorem trailingZeros_lt {w : UInt64} (h : w ≠ 0) : trailingZeros w < 64 := by
  have hex : ∃ j ∈ List.range 64, w.toNat.testBit j = true := by
    refine Decidable.byContradiction fun hnone ↦ h (eq_zero_iff.mpr fun j hj ↦ ?_)
    exact Bool.eq_false_iff.mpr fun hset ↦ hnone ⟨j, List.mem_range.mpr hj, hset⟩
  have hlt := List.findIdx_lt_length_of_exists hex
  rwa [List.length_range] at hlt

theorem testBit_trailingZeros {w : UInt64} (h : w ≠ 0) :
    w.toNat.testBit (trailingZeros w) = true := by
  have hlt : (List.range 64).findIdx w.toNat.testBit < (List.range 64).length := by
    rw [List.length_range]
    exact trailingZeros_lt h
  have hset := List.findIdx_getElem (w := hlt)
  rwa [List.getElem_range] at hset

theorem testBit_of_lt_trailingZeros {w : UInt64} {j : Nat} (h : j < trailingZeros w) :
    w.toNat.testBit j = false := by
  have hclear := List.not_of_lt_findIdx h
  rwa [List.getElem_range] at hclear

/-- The lowest set bit and those above it make up a number. -/
theorem eq_of_lowest {x t : Nat} (hset : x.testBit t = true)
    (hclear : ∀ j < t, x.testBit j = false) : x = x >>> (t + 1) <<< (t + 1) + 1 <<< t := by
  have hmod : x % 2 ^ (t + 1) = 2 ^ t := by
    apply Nat.eq_of_testBit_eq
    intro j
    rw [Nat.testBit_mod_two_pow, Nat.testBit_two_pow]
    rcases Nat.lt_trichotomy j t with hlt | rfl | hgt
    · rw [hclear j hlt, Bool.and_false, decide_eq_false (Nat.ne_of_gt hlt)]
    · rw [hset, decide_eq_true (Nat.lt_succ_self j), decide_eq_true rfl, Bool.true_and]
    · rw [decide_eq_false (Nat.not_lt.mpr hgt), Bool.false_and, decide_eq_false (Nat.ne_of_lt hgt)]
  have hsplit := Nat.div_add_mod' x (2 ^ (t + 1))
  rw [hmod] at hsplit
  rw [Nat.shiftRight_eq_div_pow, Nat.shiftLeft_eq, Nat.one_shiftLeft]
  exact hsplit.symm

/-- Below the lowest set bit a number and its predecessor differ everywhere, and above it
nowhere. -/
theorem testBit_and_sub_one {x t : Nat} (hset : x.testBit t = true)
    (hclear : ∀ j < t, x.testBit j = false) (j : Nat) :
    (x &&& (x - 1)).testBit j = (x.testBit j && decide (j ≠ t)) := by
  have hx := eq_of_lowest hset hclear
  generalize x >>> (t + 1) = high at hx
  rw [Nat.shiftLeft_eq, Nat.mul_comm, Nat.one_shiftLeft] at hx
  have hpos : 0 < 2 ^ t := Nat.pow_pos (by decide)
  have hpow : 2 ^ t < 2 ^ (t + 1) := Nat.pow_lt_pow_right (by decide) (Nat.lt_succ_self t)
  have hpred : x - 1 = 2 ^ (t + 1) * high + (2 ^ t - 1) := by omega
  have hbits := Nat.testBit_two_pow_mul_add high hpow j
  have hbits' := Nat.testBit_two_pow_mul_add high (Nat.lt_of_le_of_lt (Nat.sub_le _ 1) hpow) j
  rw [← hx, Nat.testBit_two_pow] at hbits
  rw [← hpred, Nat.testBit_two_pow_sub_one] at hbits'
  rw [Nat.testBit_and, hbits, hbits']
  by_cases hj : j < t + 1
  · by_cases hjt : t = j
    · simp [hjt]
    · simp [hj, hjt]
  · have hne : j ≠ t := by omega
    simp [hj, hne]

/-- A nonzero word and the one before it have all set bits but the lowest in common. -/
theorem testBit_clearLowest {w : UInt64} (h : w ≠ 0) (j : Nat) :
    (w &&& (w - 1)).toNat.testBit j =
      (w.toNat.testBit j && decide (j ≠ trailingZeros w)) := by
  have hne : w.toNat ≠ 0 := fun hzero ↦ h (UInt64.toNat_inj.mp hzero)
  rw [UInt64.toNat_and, toNat_sub_one hne]
  exact testBit_and_sub_one (testBit_trailingZeros h) (fun _ ↦ testBit_of_lt_trailingZeros) j

/-- With the bits below `t` clear, the set bits are among those from `t` on. -/
theorem bits_of_clear {w : UInt64} {t : Nat} (ht : t ≤ 64)
    (hclear : ∀ j < t, w.toNat.testBit j = false) :
    bits w = (List.range' t (64 - t)).filter w.toNat.testBit := by
  have hsplit : List.range 64 = List.range t ++ List.range' t (64 - t) := by
    rw [List.range_eq_range', List.range_eq_range', ← Nat.add_sub_cancel' ht,
      ← List.range'_append_1, Nat.zero_add, Nat.add_sub_cancel_left]
  have hbelow : (List.range t).filter w.toNat.testBit = [] := by
    rw [List.filter_eq_nil_iff]
    intro j hj
    rw [hclear j (List.mem_range.mp hj)]
    decide
  rw [bits, hsplit, List.filter_append, hbelow, List.nil_append]

/-- The set bits are the lowest one and those that stay when it is taken away. -/
theorem bits_eq_cons {w : UInt64} (h : w ≠ 0) :
    bits w = trailingZeros w :: bits (w &&& (w - 1)) := by
  have hlt := trailingZeros_lt h
  have hset := testBit_trailingZeros h
  have hclear : ∀ j < trailingZeros w, w.toNat.testBit j = false := fun _ ↦
    testBit_of_lt_trailingZeros
  have hcut := testBit_clearLowest h
  generalize trailingZeros w = t at hlt hset hclear hcut
  have hclear' : ∀ j < t + 1, (w &&& (w - 1)).toNat.testBit j = false := by
    intro j hj
    rw [hcut]
    rcases Nat.lt_succ_iff_lt_or_eq.mp hj with hjt | rfl
    · rw [hclear j hjt, Bool.false_and]
    · rw [decide_eq_false (fun hne ↦ hne rfl), Bool.and_false]
  have habove : (List.range' (t + 1) (64 - (t + 1))).filter (w &&& (w - 1)).toNat.testBit =
      (List.range' (t + 1) (64 - (t + 1))).filter w.toNat.testBit := by
    refine List.filter_congr fun j hj ↦ ?_
    have hjt : j ≠ t := Nat.ne_of_gt (List.mem_range'_1.mp hj).1
    rw [hcut, decide_eq_true hjt, Bool.and_true]
  have hfirst : 64 - t = 64 - (t + 1) + 1 := by omega
  rw [bits_of_clear hlt hclear', habove, bits_of_clear (Nat.le_of_lt hlt) hclear, hfirst,
    List.range'_succ, List.filter_cons_of_pos hset]

theorem bits_zero : bits 0 = [] := by
  rw [bits, List.filter_eq_nil_iff]
  intro j _
  rw [eq_zero_iff.mp rfl j (List.mem_range.mp ‹_›)]
  decide

theorem ones_eq_length (w : UInt64) : ones w = (bits w).length :=
  List.countP_eq_length_filter

/-! ### Loops over words -/

/-- Replaces words by what `f` makes of each and the other word at its place, as far as both lists
reach. The flag is raised when a word changes. -/
def zipLoop (f : UInt64 → UInt64 → UInt64) :
    List UInt64 → List UInt64 → Bool → List UInt64 × Bool
  | mine :: rest, theirs :: others, changed =>
    let merged := f mine theirs
    let done := zipLoop f rest others (changed || merged != mine)
    (merged :: done.1, done.2)
  | words, _, changed => (words, changed)

/-- Keeps of each word, from the `k`-th on, what the other word at its place has too. The flag is
raised when a word changes. -/
def keepLoop (theirs : Nat → UInt64) : Nat → List UInt64 → Bool → List UInt64 × Bool
  | _, [], changed => ([], changed)
  | k, mine :: rest, changed =>
    let kept := mine &&& theirs k
    let done := keepLoop theirs (k + 1) rest (changed || kept != mine)
    (kept :: done.1, done.2)

section Loops

variable {f : UInt64 → UInt64 → UInt64} {theirs : Nat → UInt64}

theorem cons_bne_cons (a b : UInt64) (as bs : List UInt64) :
    (a :: as != b :: bs) = (a != b || as != bs) := by
  simp only [bne, List.cons_beq_cons, Bool.not_and]

theorem length_zipLoop (words others : List UInt64) (changed : Bool) :
    (zipLoop f words others changed).1.length = words.length := by
  fun_induction zipLoop f words others changed with
  | case1 mine rest theirs others changed merged done ih => exact congrArg (· + 1) ih
  | case2 => rfl

/-- The flag tells whether it was raised before or a word changed. -/
theorem zipLoop_changed (words others : List UInt64) (changed : Bool) :
    (zipLoop f words others changed).2 =
      (changed || (zipLoop f words others changed).1 != words) := by
  fun_induction zipLoop f words others changed with
  | case1 mine rest theirs others changed merged done ih =>
    rw [cons_bne_cons, ← Bool.or_assoc]
    exact ih
  | case2 => simp

/-- Past the end of the others stands what zeros would leave there. -/
theorem getD_zipLoop (hzero : ∀ w, f w 0 = w) {words : List UInt64} {k : Nat}
    (hk : k < words.length) (others : List UInt64) (changed : Bool) :
    (zipLoop f words others changed).1.getD k 0 = f (words.getD k 0) (others.getD k 0) := by
  induction words generalizing others changed k with
  | nil => exact absurd hk (Nat.not_lt_zero k)
  | cons mine rest ih =>
    cases others with
    | nil => exact (hzero _).symm
    | cons other others =>
      cases k with
      | zero => rfl
      | succ k => exact ih (Nat.lt_of_succ_lt_succ hk) others _

theorem length_keepLoop (k : Nat) (words : List UInt64) (changed : Bool) :
    (keepLoop theirs k words changed).1.length = words.length := by
  fun_induction keepLoop theirs k words changed with
  | case1 => rfl
  | case2 k mine rest changed kept done ih => exact congrArg (· + 1) ih

theorem keepLoop_changed (k : Nat) (words : List UInt64) (changed : Bool) :
    (keepLoop theirs k words changed).2 =
      (changed || (keepLoop theirs k words changed).1 != words) := by
  fun_induction keepLoop theirs k words changed with
  | case1 => simp
  | case2 k mine rest changed kept done ih =>
    rw [cons_bne_cons, ← Bool.or_assoc]
    exact ih

theorem getD_keepLoop {words : List UInt64} {j : Nat} (hj : j < words.length) (k : Nat)
    (changed : Bool) :
    (keepLoop theirs k words changed).1.getD j 0 = words.getD j 0 &&& theirs (k + j) := by
  induction words generalizing k changed j with
  | nil => exact absurd hj (Nat.not_lt_zero j)
  | cons mine rest ih =>
    cases j with
    | zero => rfl
    | succ j =>
      rw [Nat.add_comm j, ← Nat.add_assoc, Nat.add_comm 1 j]
      exact ih (Nat.lt_of_succ_lt_succ hj) (k + 1) _

end Loops

end FlowFacts.BitSet

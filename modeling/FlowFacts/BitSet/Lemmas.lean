import FlowFacts.BitSet

/-!
Bit sets in terms of their members: equality and inclusion look at the members alone, the members of
a set made from a list are those of the list, and each operation has the members its name says.
-/

set_option autoImplicit false
set_option relaxedAutoImplicit false

namespace FlowFacts.BitSet

theorem contains_mul_add (s : BitSet) (k : Nat) {j : Nat} (hj : j < 64) :
    s.contains (64 * k + j) = (s.word k).toNat.testBit j := by
  have hdiv : (64 * k + j) / 64 = k := by omega
  have hmod : (64 * k + j) % 64 = j := by omega
  rw [contains_eq_testBit, hdiv, hmod]

theorem word_eq_of_contains_eq {s t : BitSet} (h : ∀ i, s.contains i = t.contains i) (k : Nat) :
    s.word k = t.word k :=
  word_ext fun j hj ↦ by rw [← contains_mul_add s k hj, ← contains_mul_add t k hj, h]

theorem beq_iff {s t : BitSet} : (s == t) = true ↔ ∀ i, s.contains i = t.contains i := by
  constructor
  · intro h i
    have hall : ∀ k < max s.words.size t.words.size, s.word k = t.word k := by
      simpa [BEq.beq, List.all_eq_true] using h
    rw [contains_eq_testBit, contains_eq_testBit]
    by_cases hk : i / 64 < max s.words.size t.words.size
    · rw [hall _ hk]
    · rw [word_of_size_le (by omega), word_of_size_le (by omega)]
  · intro h
    simp [BEq.beq, List.all_eq_true, word_eq_of_contains_eq h]

theorem lt_capacity_of_mem {s : BitSet} {i : Nat} (h : i ∈ s) : i < s.capacity :=
  lt_capacity_of_contains h

theorem isSubset_iff {s t : BitSet} : s.isSubset t = true ↔ ∀ i ∈ s, i ∈ t := by
  simp only [isSubset, List.all_eq_true, List.mem_range, beq_iff_eq, mem_iff]
  constructor
  · intro h i hs
    have hzero := h _ (div_lt_size_words (lt_capacity_of_mem hs))
    have hj := mod_lt_wordBits i
    have hbit : (s.word (i / 64) &&& ~~~t.word (i / 64)).toNat.testBit (i % 64) = false := by
      rw [hzero]
      simp
    rw [UInt64.toNat_and, Nat.testBit_and, testBit_not _ hj, ← contains_eq_testBit,
      ← contains_eq_testBit, hs] at hbit
    simpa using hbit
  · intro h k _
    apply word_ext
    intro j hj
    have hk := h (64 * k + j)
    rw [contains_mul_add s k hj, contains_mul_add t k hj] at hk
    rw [UInt64.toNat_and, Nat.testBit_and, testBit_not _ hj]
    cases hs : (s.word k).toNat.testBit j
    · simp
    · simp [hk hs]

theorem isEmpty_iff {s : BitSet} : s.isEmpty = true ↔ ∀ i, i ∉ s := by
  simp only [isEmpty, Array.all_eq_true, beq_iff_eq, mem_iff, Bool.not_eq_true]
  constructor
  · intro h i
    rw [contains_eq_testBit]
    by_cases hk : i / 64 < s.words.size
    · simp [word, Array.getD, hk, h _ hk]
    · simp [word_of_size_le (Nat.not_lt.mp hk)]
  · intro h k hk
    have hword : s.word k = 0 := word_ext fun j hj ↦ by
      rw [← contains_mul_add s k hj, h]
      simp
    simpa [word, Array.getD, hk] using hword

@[simp] theorem contains_foldl_insert (indices : List Nat) (s : BitSet) (i : Nat) :
    (indices.foldl insert s).contains i = (indices.contains i || s.contains i) := by
  induction indices generalizing s with
  | nil => simp
  | cons k rest ih =>
    have hdec : (i == k) = decide (i = k) := rfl
    rw [List.foldl_cons, ih, contains_insert, List.contains_cons, hdec, ← Bool.or_assoc,
      Bool.or_comm (rest.contains i)]

@[simp] theorem mem_ofList {capacity : Nat} {indices : List Nat} {i : Nat} :
    i ∈ ofList capacity indices ↔ i ∈ indices := by
  simp [mem_iff, ofList]

theorem beq_iff_mem {s t : BitSet} : s == t ↔ ∀ i, i ∈ s ↔ i ∈ t := by
  rw [beq_iff]
  exact forall_congr' fun i ↦ Bool.eq_iff_iff

instance : EquivBEq BitSet where
  rfl := beq_iff.mpr fun _ ↦ rfl
  symm h := beq_iff.mpr fun i ↦ (beq_iff.mp h i).symm
  trans h h' := beq_iff.mpr fun i ↦ (beq_iff.mp h i).trans (beq_iff.mp h' i)

@[simp] theorem notMem_new (capacity i : Nat) : i ∉ new capacity := by
  simp [mem_iff]

@[simp] theorem notMem_empty (i : Nat) : i ∉ (∅ : BitSet) :=
  notMem_new 0 i

@[simp] theorem mem_full {capacity i : Nat} : i ∈ full capacity ↔ i < capacity := by
  simp [mem_iff]

@[simp] theorem mem_insert {s : BitSet} {i j : Nat} : j ∈ s.insert i ↔ j = i ∨ j ∈ s := by
  simp [mem_iff]

@[simp] theorem mem_erase {s : BitSet} {i j : Nat} : j ∈ s.erase i ↔ j ≠ i ∧ j ∈ s := by
  simp [mem_iff]

@[simp] theorem mem_union {s t : BitSet} {i : Nat} : i ∈ s.union t ↔ i ∈ s ∨ i ∈ t := by
  simp [mem_iff]

@[simp] theorem mem_inter {s t : BitSet} {i : Nat} : i ∈ s.inter t ↔ i ∈ s ∧ i ∈ t := by
  simp [mem_iff]

@[simp] theorem mem_diff {s t : BitSet} {i : Nat} : i ∈ s.diff t ↔ i ∈ s ∧ i ∉ t := by
  simp [mem_iff]

@[simp] theorem mem_foldl_insert {indices : List Nat} {s : BitSet} {i : Nat} :
    i ∈ indices.foldl insert s ↔ i ∈ indices ∨ i ∈ s := by
  simp [mem_iff]

/-! ### Flags -/

theorem testBit_words {s : BitSet} {k j : Nat} (hk : k < s.words.size) (hj : j < 64) :
    s.words[k].toNat.testBit j = s.contains (64 * k + j) := by
  rw [contains_mul_add s k hj, word, Array.getD_eq_getD_getElem?, Array.getElem?_eq_getElem hk,
    Option.getD_some]

/-- Sets of one capacity with the same members have the same words. -/
theorem words_ext {s t : BitSet} (hcapacity : s.capacity = t.capacity)
    (h : ∀ i, s.contains i = t.contains i) : s.words = t.words := by
  refine Array.ext (by rw [s.size_words, t.size_words, hcapacity]) fun k hk hk' ↦ ?_
  refine word_ext fun j hj ↦ ?_
  rw [testBit_words hk hj, testBit_words hk' hj, h]

/-- New words differ from the old ones exactly if the members do. -/
theorem withWords_bne {s : BitSet} {words : List UInt64}
    (hlength : words.length = s.words.toList.length)
    (hbits : ∀ i, (words.getD (i / 64) 0).toNat.testBit (i % 64) = true → i < s.capacity) :
    (words != s.words.toList) = (s.withWords words hlength hbits != s) := by
  refine congrArg not (Bool.eq_iff_iff.mpr ?_)
  rw [beq_iff_eq, beq_iff]
  constructor
  · intro heq i
    rw [contains_withWords, heq, getD_toList_words, contains_eq_testBit]
  · intro h
    have hwords : words.toArray = s.words := words_ext (s := s.withWords words hlength hbits) rfl h
    rw [← hwords]

theorem insertChanged_eq (s : BitSet) (i : Nat) :
    s.insertChanged i = (s.insert i, s.insert i != s) := by
  refine Prod.ext rfl ?_
  rw [insertChanged_eq_contains, bne]
  refine congrArg not (Bool.eq_iff_iff.mpr ?_)
  rw [beq_iff_mem]
  constructor
  · intro hi j
    rw [mem_insert]
    exact or_iff_right_of_imp fun hj ↦ hj ▸ hi
  · intro h
    exact (h i).mp (mem_insert.mpr (.inl rfl))

theorem eraseChanged_eq (s : BitSet) (i : Nat) :
    s.eraseChanged i = (s.erase i, s.erase i != s) := by
  refine Prod.ext rfl ?_
  rw [eraseChanged_eq_contains, bne, ← Bool.not_not (s.contains i)]
  refine congrArg not (Bool.eq_iff_iff.mpr ?_)
  rw [beq_iff_mem, Bool.not_eq_true', ← Bool.not_eq_true]
  constructor
  · intro hi j
    rw [mem_erase]
    exact and_iff_right_of_imp fun hj heq ↦ hi (heq ▸ hj)
  · intro h hi
    exact (mem_erase.mp ((h i).mpr hi)).1 rfl

theorem unionChanged_eq (s t : BitSet) : s.unionChanged t = (s.union t, s.union t != s) := by
  refine Prod.ext rfl ?_
  have hgrow : (s.union t != s.grow t.capacity) = (s.union t != s) :=
    congrArg not (Bool.eq_iff_iff.mpr (by simp only [beq_iff, contains_grow]))
  rw [← hgrow]
  simp only [union, unionChanged, ← withWords_bne, zipLoop_changed, Bool.false_or]

theorem interChanged_eq (s t : BitSet) : s.interChanged t = (s.inter t, s.inter t != s) := by
  refine Prod.ext rfl ?_
  simp only [inter, interChanged, ← withWords_bne, keepLoop_changed, Bool.false_or]

theorem diffChanged_eq (s t : BitSet) : s.diffChanged t = (s.diff t, s.diff t != s) := by
  refine Prod.ext rfl ?_
  simp only [diff, diffChanged, ← withWords_bne, zipLoop_changed, Bool.false_or]

/-! ### Walks -/

namespace Cursor

/-- Steps until there is no next member come to the given ones. -/
inductive Yields : Cursor → List Nat → Prop
  | stop {c : Cursor} (h : c.next? = none) : Yields c []
  | step {c c' : Cursor} {i : Nat} {members : List Nat} (h : c.next? = some (i, c'))
      (hrest : Yields c' members) : Yields c (i :: members)

/-- The members that words hold, from the `k`-th word on. -/
def membersFrom : Nat → List UInt64 → List Nat
  | _, [] => []
  | k, w :: rest => (bits w).map (k * 64 + ·) ++ membersFrom (k + 1) rest

/-- The members that a walk has still to come to. -/
def members (c : Cursor) : List Nat :=
  membersFrom c.index (c.current :: c.rest)

theorem membersFrom_zero (k : Nat) (rest : List UInt64) :
    membersFrom k (0 :: rest) = membersFrom (k + 1) rest := by
  rw [membersFrom, bits_zero, List.map_nil, List.nil_append]

theorem members_of_seek? {index : Nat} {current : UInt64} {rest : List UInt64} {c : Cursor}
    (h : seek? index current rest = some c) :
    c.current ≠ 0 ∧ c.members = membersFrom index (current :: rest) := by
  induction rest generalizing index current with
  | nil =>
    rw [seek?] at h
    split at h
    · cases h
    · next hne =>
      cases h
      exact ⟨fun hzero ↦ hne (beq_iff_eq.mpr hzero), rfl⟩
  | cons next rest ih =>
    rw [seek?] at h
    split at h
    · next hzero =>
      rw [eq_of_beq hzero, membersFrom_zero]
      exact ih h
    · next hne =>
      cases h
      exact ⟨fun hzero ↦ hne (beq_iff_eq.mpr hzero), rfl⟩

theorem membersFrom_of_seek?_eq_none {index : Nat} {current : UInt64} {rest : List UInt64}
    (h : seek? index current rest = none) : membersFrom index (current :: rest) = [] := by
  induction rest generalizing index current with
  | nil =>
    rw [seek?] at h
    split at h
    · next hzero =>
      rw [eq_of_beq hzero, membersFrom_zero]
      rfl
    · cases h
  | cons next rest ih =>
    rw [seek?] at h
    split at h
    · next hzero =>
      rw [eq_of_beq hzero, membersFrom_zero]
      exact ih h
    · cases h

/-- A step takes the first of the members to come. -/
theorem members_of_next? {c c' : Cursor} {i : Nat} (h : c.next? = some (i, c')) :
    c.members = i :: c'.members := by
  cases hseek : seek? c.index c.current c.rest with
  | none => simp [next?, hseek] at h
  | some found =>
    obtain ⟨hne, hmembers⟩ := members_of_seek? hseek
    simp only [next?, hseek, Option.some.injEq, Prod.mk.injEq] at h
    obtain ⟨rfl, rfl⟩ := h
    rw [members, ← hmembers, members, members, membersFrom, membersFrom, bits_eq_cons hne]
    rfl

theorem members_of_next?_eq_none {c : Cursor} (h : c.next? = none) : c.members = [] := by
  cases hseek : seek? c.index c.current c.rest with
  | none => exact membersFrom_of_seek?_eq_none hseek
  | some found => simp [next?, hseek] at h

theorem yields_members {c : Cursor} {members : List Nat} (h : c.members = members) :
    c.Yields members := by
  induction members generalizing c with
  | nil =>
    cases hnext : c.next? with
    | none => exact .stop hnext
    | some step =>
      rw [members_of_next? hnext] at h
      cases h
  | cons i rest ih =>
    cases hnext : c.next? with
    | none =>
      rw [members_of_next?_eq_none hnext] at h
      cases h
    | some step =>
      rw [members_of_next? hnext, List.cons.injEq] at h
      exact h.1 ▸ .step hnext (ih h.2)

theorem take_eq (limit : Nat) (c : Cursor) : c.take limit = c.members.take limit := by
  induction limit generalizing c with
  | zero => rfl
  | succ limit ih =>
    cases hnext : c.next? with
    | none => simp [take, hnext, members_of_next?_eq_none hnext]
    | some step => simp [take, hnext, members_of_next? hnext, ih]

theorem foldl_ones (k n : Nat) (words : List UInt64) :
    words.foldl (fun n w ↦ n + ones w) n = n + (membersFrom k words).length := by
  induction words generalizing k n with
  | nil => rfl
  | cons w rest ih =>
    rw [List.foldl_cons, ih (k + 1), membersFrom, List.length_append, List.length_map,
      ← ones_eq_length, Nat.add_assoc]

theorem length_membersFrom_le (k : Nat) (words : List UInt64) :
    (membersFrom k words).length ≤ 64 * words.length := by
  induction words generalizing k with
  | nil => exact Nat.le_refl 0
  | cons w rest ih =>
    have hbits : (bits w).length ≤ 64 := by
      simpa [bits] using List.length_filter_le w.toNat.testBit (List.range 64)
    have hrest := ih (k + 1)
    rw [membersFrom, List.length_append, List.length_map, List.length_cons]
    omega

end Cursor

theorem map_bits_word (s : BitSet) (k : Nat) :
    (bits (s.word k)).map (k * 64 + ·) = (List.range' (64 * k) 64).filter s.contains := by
  rw [List.range'_eq_map_range, List.filter_map, Nat.mul_comm, bits]
  refine congrArg (List.map _) (List.filter_congr fun j hj ↦ ?_)
  exact (s.contains_mul_add k (List.mem_range.mp hj)).symm

theorem membersFrom_eq_filter (s : BitSet) {k : Nat} {words : List UInt64}
    (h : ∀ j, words.getD j 0 = s.word (k + j)) :
    Cursor.membersFrom k words = (List.range' (64 * k) (64 * words.length)).filter s.contains := by
  induction words generalizing k with
  | nil => rfl
  | cons w rest ih =>
    have hw : w = s.word k := h 0
    have hrest : ∀ j, rest.getD j 0 = s.word (k + 1 + j) := fun j ↦ by
      rw [Nat.add_assoc, Nat.add_comm 1]
      exact h (j + 1)
    rw [Cursor.membersFrom, ih hrest, hw, map_bits_word, ← List.filter_append, List.length_cons,
      Nat.mul_succ 64 k, List.range'_append_1, Nat.mul_succ, Nat.add_comm 64]

theorem members_iter (s : BitSet) : s.iter.members = Cursor.membersFrom 0 s.words.toList := by
  rw [Cursor.members, iter, ← getD_toList_words]
  cases s.words.toList with
  | nil => exact Cursor.membersFrom_zero 0 []
  | cons w rest => rfl

theorem toList_eq_members (s : BitSet) : s.toList = s.iter.members := by
  rw [toList, Cursor.take_eq, members_iter]
  exact List.take_of_length_le (Cursor.length_membersFrom_le 0 s.words.toList)

/-- The walk ends and comes to the listed members. -/
theorem yields_toList (s : BitSet) : s.iter.Yields s.toList :=
  Cursor.yields_members s.toList_eq_members.symm

/-- The counted bits are the listed members. -/
theorem count_eq_length (s : BitSet) : s.count = s.toList.length := by
  rw [count, ← Array.foldl_toList, Cursor.foldl_ones 0, toList_eq_members, members_iter,
    Nat.zero_add]

theorem toList_eq_filter (s : BitSet) :
    s.toList = (List.range (64 * s.words.size)).filter s.contains := by
  have hwords : ∀ j, s.words.toList.getD j 0 = s.word (0 + j) := fun j ↦ by
    rw [Nat.zero_add, getD_toList_words]
  rw [toList_eq_members, members_iter, membersFrom_eq_filter s hwords, Array.length_toList,
    List.range_eq_range', Nat.mul_zero]

theorem pairwise_toList (s : BitSet) : s.toList.Pairwise (· < ·) := by
  rw [toList_eq_filter]
  exact List.pairwise_lt_range.filter _

@[simp] theorem mem_toList {s : BitSet} {i : Nat} : i ∈ s.toList ↔ i ∈ s := by
  rw [toList_eq_filter, List.mem_filter, List.mem_range, mem_iff]
  refine and_iff_right_of_imp fun h ↦ ?_
  have hlt := div_lt_size_words (lt_capacity_of_contains h)
  omega

end FlowFacts.BitSet

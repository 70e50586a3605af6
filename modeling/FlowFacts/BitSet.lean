import FlowFacts.BitSet.Word
import FlowFacts.Text.Braced

/-!
Finite sets of indices, packed into 64-bit words. An index past the capacity is absent, insertion
grows the set to reach it, and equality looks at the members alone. The stored words cover the
capacity exactly and hold no bit past it.
-/

set_option autoImplicit false
set_option relaxedAutoImplicit false

namespace FlowFacts

/-- Padding an array with what is read past its end changes no reading. -/
theorem getD_append_replicate {α : Type} (items : Array α) (count n : Nat) (fill : α) :
    (items ++ Array.replicate count fill).getD n fill = items.getD n fill := by
  simp only [Array.getD_eq_getD_getElem?, Array.getElem?_append]
  split
  · rfl
  · next hn =>
    rw [Array.getElem?_eq_none (Nat.not_lt.mp hn), Option.getD_none, Array.getElem?_replicate]
    split <;> rfl

namespace BitSet

/-- How many words cover the indices below `capacity`. -/
def wordCount (capacity : Nat) : Nat :=
  (capacity + 63) / 64

def bitAt (words : Array UInt64) (i : Nat) : Bool :=
  (words.getD (i / 64) 0).toNat.testBit (i % 64)

end BitSet

structure BitSet where
  words : Array UInt64
  capacity : Nat
  size_words : words.size = BitSet.wordCount capacity
  bitAt_of_capacity_le : ∀ i, capacity ≤ i → BitSet.bitAt words i = false

namespace BitSet

theorem mod_lt_wordBits (i : Nat) : i % 64 < 64 :=
  Nat.mod_lt i (by decide)

theorem div_lt_wordCount {i capacity : Nat} (h : i < capacity) : i / 64 < wordCount capacity := by
  unfold wordCount
  omega

/-- A word that is not stored has no bits. -/
theorem bitAt_of_size_le {words : Array UInt64} {i : Nat} (h : words.size ≤ i / 64) :
    bitAt words i = false := by
  simp [bitAt, Array.getD, Nat.not_lt.mpr h]

def word (s : BitSet) (k : Nat) : UInt64 :=
  s.words.getD k 0

theorem div_lt_size_words {s : BitSet} {i : Nat} (h : i < s.capacity) : i / 64 < s.words.size :=
  s.size_words ▸ div_lt_wordCount h

/-! ### Members -/

def contains (s : BitSet) (i : Nat) : Bool :=
  i < s.capacity && s.word (i / 64) &&& bit (i % 64) != 0

theorem contains_eq_bitAt (s : BitSet) (i : Nat) : s.contains i = bitAt s.words i := by
  rw [contains, and_bit_bne_zero _ (mod_lt_wordBits i)]
  by_cases hi : i < s.capacity
  · rw [decide_eq_true hi, Bool.true_and]
    rfl
  · rw [decide_eq_false hi, Bool.false_and, s.bitAt_of_capacity_le i (Nat.not_lt.mp hi)]

theorem contains_of_capacity_le {s : BitSet} {i : Nat} (h : s.capacity ≤ i) :
    s.contains i = false :=
  (s.contains_eq_bitAt i).trans (s.bitAt_of_capacity_le i h)

theorem contains_eq_testBit (s : BitSet) (i : Nat) :
    s.contains i = (s.word (i / 64)).toNat.testBit (i % 64) :=
  s.contains_eq_bitAt i

instance : Membership Nat BitSet where
  mem s i := s.contains i = true

theorem mem_iff {s : BitSet} {i : Nat} : i ∈ s ↔ s.contains i = true :=
  Iff.rfl

instance (s : BitSet) (i : Nat) : Decidable (i ∈ s) :=
  inferInstanceAs (Decidable (s.contains i = true))

/-! ### Empty and full sets -/

/-- The empty set with room for the indices below `capacity`. -/
def new (capacity : Nat) : BitSet where
  words := Array.replicate (wordCount capacity) 0
  capacity := capacity
  size_words := Array.size_replicate
  bitAt_of_capacity_le i _ := by simp [bitAt, Array.getD]

instance : EmptyCollection BitSet where
  emptyCollection := new 0

instance : Inhabited BitSet where
  default := ∅

@[simp] theorem contains_new (capacity i : Nat) : (new capacity).contains i = false := by
  rw [contains_eq_bitAt]
  simp [new, bitAt, Array.getD]

/-- Removes every member and keeps the capacity. -/
def clear (s : BitSet) : BitSet where
  words := s.words.map fun _ ↦ 0
  capacity := s.capacity
  size_words := Array.size_map.trans s.size_words
  bitAt_of_capacity_le i _ := by simp [bitAt, Array.getD]

@[simp] theorem contains_clear (s : BitSet) (i : Nat) : s.clear.contains i = false := by
  rw [contains_eq_bitAt]
  simp [clear, bitAt, Array.getD]

theorem bitAt_modify {words : Array UInt64} {k : Nat} (hk : k < words.size)
    (f : UInt64 → UInt64) (i : Nat) :
    bitAt (words.modify k f) i =
      if i / 64 = k then (f (words.getD k 0)).toNat.testBit (i % 64) else bitAt words i := by
  by_cases h : i / 64 = k
  · simp [bitAt, Array.getD, Array.getElem_modify, h, hk]
  · have h' : k ≠ i / 64 := fun e ↦ h e.symm
    simp [bitAt, Array.getD, Array.getElem_modify, h, h']

/-- Clears the bits of the last word that stand past the capacity. -/
def trimTail (capacity : Nat) (words : Array UInt64) : Array UInt64 :=
  let tail := capacity % 64
  if tail = 0 then words else words.modify (words.size - 1) (· &&& (bit tail - 1))

@[simp] theorem size_trimTail (capacity : Nat) (words : Array UInt64) :
    (trimTail capacity words).size = words.size := by
  simp only [trimTail]
  split
  · rfl
  · exact Array.size_modify

theorem bitAt_trimTail {capacity : Nat} {words : Array UInt64}
    (hsize : words.size = wordCount capacity) (i : Nat) :
    bitAt (trimTail capacity words) i = (bitAt words i && decide (i < capacity)) := by
  simp only [wordCount] at hsize
  -- Only the last word can reach past the capacity, and only if the capacity ends inside it.
  have hpast : i / 64 ≠ words.size - 1 ∨ capacity % 64 = 0 → ¬i < capacity →
      bitAt words i = false := fun _ hi ↦ bitAt_of_size_le (by omega)
  simp only [trimTail]
  split
  · next htail =>
    by_cases hi : i < capacity
    · rw [decide_eq_true hi, Bool.and_true]
    · rw [hpast (.inr htail) hi, Bool.false_and]
  · next htail =>
    rw [bitAt_modify (by omega)]
    split
    · next hlast =>
      have hiff : i % 64 < capacity % 64 ↔ i < capacity := by omega
      rw [UInt64.toNat_and, Nat.testBit_and, testBit_bit_sub_one (mod_lt_wordBits capacity),
        decide_eq_decide.mpr hiff, bitAt, hlast]
    · next hlast =>
      by_cases hi : i < capacity
      · rw [decide_eq_true hi, Bool.and_true]
      · rw [hpast (.inl hlast) hi, Bool.false_and]

theorem bitAt_map_not_zero (words : Array UInt64) (i : Nat) :
    bitAt (words.map fun _ ↦ ~~~0) i = decide (i / 64 < words.size) := by
  by_cases hi : i / 64 < words.size
  · have hset := testBit_not 0 (mod_lt_wordBits i)
    rw [UInt64.toNat_zero, Nat.zero_testBit, Bool.not_false] at hset
    simpa [bitAt, Array.getD, hi] using hset
  · rw [decide_eq_false hi]
    exact bitAt_of_size_le (by rw [Array.size_map]; exact Nat.not_lt.mp hi)

theorem bitAt_fill (s : BitSet) (i : Nat) :
    bitAt (trimTail s.capacity (s.words.map fun _ ↦ ~~~0)) i = decide (i < s.capacity) := by
  rw [bitAt_trimTail (Array.size_map.trans s.size_words), bitAt_map_not_zero, ← Bool.decide_and]
  exact decide_eq_decide.mpr (and_iff_right_of_imp div_lt_size_words)

/-- Adds every index below the capacity. -/
def fill (s : BitSet) : BitSet where
  words := trimTail s.capacity (s.words.map fun _ ↦ ~~~0)
  capacity := s.capacity
  size_words := by rw [size_trimTail, Array.size_map, s.size_words]
  bitAt_of_capacity_le i hi := by
    rw [bitAt_fill, decide_eq_false (Nat.not_lt.mpr hi)]

@[simp] theorem contains_fill (s : BitSet) (i : Nat) :
    s.fill.contains i = decide (i < s.capacity) :=
  (contains_eq_bitAt _ i).trans (s.bitAt_fill i)

/-- Every index below `capacity`. -/
def full (capacity : Nat) : BitSet :=
  (new capacity).fill

@[simp] theorem contains_full (capacity i : Nat) :
    (full capacity).contains i = decide (i < capacity) :=
  contains_fill (new capacity) i

/-! ### Single indices -/

/-- The same members with room for the indices below `capacity` too. -/
def grow (s : BitSet) (capacity : Nat) : BitSet :=
  if h : s.capacity < capacity then
    { words := s.words.rightpad (wordCount capacity) 0
      capacity := capacity
      size_words := by
        have hle : s.words.size ≤ wordCount capacity := by
          rw [s.size_words]
          unfold wordCount
          omega
        rw [Array.rightpad, Array.size_append, Array.size_replicate]
        omega
      bitAt_of_capacity_le := fun i hi ↦ by
        rw [bitAt, Array.rightpad, getD_append_replicate]
        exact s.bitAt_of_capacity_le i (by omega) }
  else s

theorem word_grow (s : BitSet) (capacity k : Nat) : (s.grow capacity).word k = s.word k := by
  rw [grow]
  split
  · exact getD_append_replicate _ _ _ _
  · rfl

@[simp] theorem contains_grow (s : BitSet) (capacity i : Nat) :
    (s.grow capacity).contains i = s.contains i := by
  rw [contains_eq_testBit, contains_eq_testBit, word_grow]

@[simp] theorem capacity_grow (s : BitSet) (capacity : Nat) :
    (s.grow capacity).capacity = max s.capacity capacity := by
  rw [grow]
  split
  · next h => exact (Nat.max_eq_right (Nat.le_of_lt h)).symm
  · next h => exact (Nat.max_eq_left (Nat.not_lt.mp h)).symm

theorem lt_capacity_grow (s : BitSet) (i : Nat) : i < (s.grow (i + 1)).capacity := by
  rw [capacity_grow]
  omega

theorem bitAt_insert (s : BitSet) {i : Nat} (hi : i < s.capacity) (j : Nat) :
    bitAt (s.words.modify (i / 64) (· ||| bit (i % 64))) j = (decide (j = i) || s.contains j) := by
  rw [bitAt_modify (div_lt_size_words hi)]
  by_cases h : j / 64 = i / 64
  · rw [if_pos h, UInt64.toNat_or, Nat.testBit_or, testBit_bit (mod_lt_wordBits i),
      contains_eq_testBit, h, word, Bool.or_comm]
    congr 1
    exact decide_eq_decide.mpr (by omega)
  · have : j ≠ i := fun e ↦ h (e ▸ rfl)
    rw [if_neg h, decide_eq_false this, Bool.false_or, contains_eq_bitAt]

theorem bitAt_erase (s : BitSet) {i : Nat} (hi : i < s.capacity) (j : Nat) :
    bitAt (s.words.modify (i / 64) (· &&& ~~~bit (i % 64))) j =
      (!decide (j = i) && s.contains j) := by
  rw [bitAt_modify (div_lt_size_words hi)]
  by_cases h : j / 64 = i / 64
  · rw [if_pos h, UInt64.toNat_and, Nat.testBit_and, testBit_not _ (mod_lt_wordBits j),
      testBit_bit (mod_lt_wordBits i), contains_eq_testBit, h, word, Bool.and_comm]
    congr 2
    exact decide_eq_decide.mpr (by omega)
  · have : j ≠ i := fun e ↦ h (e ▸ rfl)
    rw [if_neg h, decide_eq_false this, Bool.not_false, Bool.true_and, contains_eq_bitAt]

/-- Adds an index, growing the set to reach it, and says whether it was absent before. -/
def insertChanged (s : BitSet) (i : Nat) : BitSet × Bool :=
  let t := s.grow (i + 1)
  ({ words := t.words.modify (i / 64) (· ||| bit (i % 64))
     capacity := t.capacity
     size_words := by rw [Array.size_modify, t.size_words]
     bitAt_of_capacity_le := fun j hj ↦ by
       have hne : j ≠ i := fun e ↦ Nat.not_lt.mpr hj (e ▸ s.lt_capacity_grow i)
       rw [bitAt_insert t (s.lt_capacity_grow i), contains_of_capacity_le hj, decide_eq_false hne,
         Bool.or_false] },
    t.word (i / 64) &&& bit (i % 64) == 0)

/-- Removes an index and says whether it was present before. -/
def eraseChanged (s : BitSet) (i : Nat) : BitSet × Bool :=
  if hi : i < s.capacity then
    ({ words := s.words.modify (i / 64) (· &&& ~~~bit (i % 64))
       capacity := s.capacity
       size_words := by rw [Array.size_modify, s.size_words]
       bitAt_of_capacity_le := fun j hj ↦ by
         rw [bitAt_erase s hi, contains_of_capacity_le hj, Bool.and_false] },
      s.word (i / 64) &&& bit (i % 64) != 0)
  else (s, false)

def insert (s : BitSet) (i : Nat) : BitSet :=
  (s.insertChanged i).1

def erase (s : BitSet) (i : Nat) : BitSet :=
  (s.eraseChanged i).1

@[simp] theorem contains_insert (s : BitSet) (i j : Nat) :
    (s.insert i).contains j = (decide (j = i) || s.contains j) := by
  rw [contains_eq_bitAt, ← contains_grow s (i + 1) j]
  exact bitAt_insert _ (s.lt_capacity_grow i) j

@[simp] theorem contains_erase (s : BitSet) (i j : Nat) :
    (s.erase i).contains j = (!decide (j = i) && s.contains j) := by
  by_cases hi : i < s.capacity
  · rw [contains_eq_bitAt, erase, eraseChanged, dif_pos hi]
    exact bitAt_erase s hi j
  · rw [erase, eraseChanged, dif_neg hi]
    by_cases hj : j = i
    · rw [hj, contains_of_capacity_le (Nat.not_lt.mp hi), Bool.and_false]
    · rw [decide_eq_false hj, Bool.not_false, Bool.true_and]

@[simp] theorem capacity_insert (s : BitSet) (i : Nat) :
    (s.insert i).capacity = max s.capacity (i + 1) :=
  s.capacity_grow (i + 1)

@[simp] theorem capacity_erase (s : BitSet) (i : Nat) : (s.erase i).capacity = s.capacity := by
  rw [erase, eraseChanged]
  split <;> rfl

/-- The flag of an insertion tells whether the index was absent. -/
theorem insertChanged_eq_contains (s : BitSet) (i : Nat) :
    (s.insertChanged i).2 = !s.contains i := by
  have hmask := and_bit_bne_zero ((s.grow (i + 1)).word (i / 64)) (mod_lt_wordBits i)
  rw [← contains_grow s (i + 1), contains_eq_testBit, ← hmask, bne, Bool.not_not]
  rfl

theorem eraseChanged_eq_contains (s : BitSet) (i : Nat) :
    (s.eraseChanged i).2 = s.contains i := by
  by_cases hi : i < s.capacity
  · rw [eraseChanged, dif_pos hi, contains_eq_testBit]
    exact and_bit_bne_zero _ (mod_lt_wordBits i)
  · rw [eraseChanged, dif_neg hi, contains_of_capacity_le (Nat.not_lt.mp hi)]

/-- The given indices, in a set with room for those below `capacity`. -/
def ofList (capacity : Nat) (indices : List Nat) : BitSet :=
  indices.foldl insert (new capacity)

/-! ### Pairs of sets -/

/-- A set of the capacity of `s` from words that are as many and have no bit past it. -/
def withWords (s : BitSet) (words : List UInt64) (hlength : words.length = s.words.toList.length)
    (hbits : ∀ i, (words.getD (i / 64) 0).toNat.testBit (i % 64) = true → i < s.capacity) :
    BitSet where
  words := words.toArray
  capacity := s.capacity
  size_words := by
    rw [List.size_toArray, hlength, Array.length_toList, s.size_words]
  bitAt_of_capacity_le i hi := by
    refine Bool.eq_false_iff.mpr fun hset ↦ Nat.not_lt.mpr hi (hbits i ?_)
    simpa [bitAt] using hset

theorem contains_withWords {s : BitSet} {words : List UInt64}
    (hlength : words.length = s.words.toList.length)
    (hbits : ∀ i, (words.getD (i / 64) 0).toNat.testBit (i % 64) = true → i < s.capacity)
    (i : Nat) :
    (s.withWords words hlength hbits).contains i =
      (words.getD (i / 64) 0).toNat.testBit (i % 64) := by
  rw [contains_eq_bitAt]
  simp [withWords, bitAt]

theorem getD_toList_words (s : BitSet) (k : Nat) : s.words.toList.getD k 0 = s.word k := by
  simp [word]

theorem word_of_size_le {s : BitSet} {k : Nat} (h : s.words.size ≤ k) : s.word k = 0 := by
  simp [word, Array.getD, Nat.not_lt.mpr h]

theorem lt_capacity_of_contains {s : BitSet} {i : Nat} (h : s.contains i = true) :
    i < s.capacity := by
  refine Nat.lt_of_not_le fun hle ↦ ?_
  rw [contains_of_capacity_le hle] at h
  exact Bool.false_ne_true h

/-- The words of a loop over those of `s`, also past the end of both. -/
theorem getD_of_loop {s : BitSet} {words : List UInt64} {g : Nat → UInt64 → UInt64}
    (hlength : words.length = s.words.toList.length)
    (h : ∀ k < s.words.toList.length, words.getD k 0 = g k (s.word k))
    (hzero : ∀ k, s.words.size ≤ k → g k 0 = 0) (k : Nat) : words.getD k 0 = g k (s.word k) := by
  by_cases hk : k < s.words.toList.length
  · exact h k hk
  · have hsize : s.words.size ≤ k := Nat.not_lt.mp hk
    rw [word_of_size_le hsize, hzero k hsize, List.getD_eq_getElem?_getD,
      List.getElem?_eq_none (hlength ▸ Nat.not_lt.mp hk), Option.getD_none]

theorem getD_unionLoop (s t : BitSet) (k : Nat) :
    (zipLoop (· ||| ·) (s.grow t.capacity).words.toList t.words.toList false).1.getD k 0 =
      s.word k ||| t.word k := by
  rw [← word_grow s t.capacity k]
  refine getD_of_loop (g := fun k w ↦ w ||| t.word k) (length_zipLoop _ _ _) (fun k hk ↦ ?_)
    (fun k hk ↦ ?_) k
  · rw [getD_zipLoop (fun w ↦ by simp) hk, getD_toList_words, getD_toList_words]
  · have hle : t.words.size ≤ (s.grow t.capacity).words.size := by
      rw [t.size_words, (s.grow t.capacity).size_words, capacity_grow, wordCount, wordCount]
      omega
    rw [word_of_size_le (Nat.le_trans hle hk)]
    rfl

theorem getD_interLoop (s t : BitSet) (k : Nat) :
    (keepLoop t.word 0 s.words.toList false).1.getD k 0 = s.word k &&& t.word k := by
  refine getD_of_loop (g := fun k w ↦ w &&& t.word k) (length_keepLoop _ _ _) (fun k hk ↦ ?_)
    (fun k _ ↦ UInt64.zero_and) k
  rw [getD_keepLoop hk, getD_toList_words, Nat.zero_add]

theorem getD_diffLoop (s t : BitSet) (k : Nat) :
    (zipLoop (· &&& ~~~·) s.words.toList t.words.toList false).1.getD k 0 =
      s.word k &&& ~~~t.word k := by
  refine getD_of_loop (g := fun k w ↦ w &&& ~~~t.word k) (length_zipLoop _ _ _) (fun k hk ↦ ?_)
    (fun k _ ↦ UInt64.zero_and) k
  rw [getD_zipLoop (fun w ↦ by simp) hk, getD_toList_words, getD_toList_words]

theorem testBit_unionLoop (s t : BitSet) (i : Nat) :
    ((zipLoop (· ||| ·) (s.grow t.capacity).words.toList t.words.toList false).1.getD
      (i / 64) 0).toNat.testBit (i % 64) = (s.contains i || t.contains i) := by
  rw [getD_unionLoop, UInt64.toNat_or, Nat.testBit_or, contains_eq_testBit, contains_eq_testBit]

theorem testBit_interLoop (s t : BitSet) (i : Nat) :
    ((keepLoop t.word 0 s.words.toList false).1.getD (i / 64) 0).toNat.testBit (i % 64) =
      (s.contains i && t.contains i) := by
  rw [getD_interLoop, UInt64.toNat_and, Nat.testBit_and, contains_eq_testBit, contains_eq_testBit]

theorem testBit_diffLoop (s t : BitSet) (i : Nat) :
    ((zipLoop (· &&& ~~~·) s.words.toList t.words.toList false).1.getD (i / 64) 0).toNat.testBit
      (i % 64) = (s.contains i && !t.contains i) := by
  rw [getD_diffLoop, UInt64.toNat_and, Nat.testBit_and, testBit_not _ (mod_lt_wordBits i),
    contains_eq_testBit, contains_eq_testBit]

/-- Adds the members of `t` to `s`, which grows to the larger capacity, and says whether that added
one. -/
def unionChanged (s t : BitSet) : BitSet × Bool :=
  let room := s.grow t.capacity
  let merged := zipLoop (· ||| ·) room.words.toList t.words.toList false
  (room.withWords merged.1 (length_zipLoop _ _ _) fun i hi ↦ by
    rw [testBit_unionLoop, Bool.or_eq_true] at hi
    have hlt := hi.imp lt_capacity_of_contains lt_capacity_of_contains
    rw [capacity_grow]
    omega,
    merged.2)

/-- Keeps the members of `s` that are in `t`, with the capacity of `s`, and says whether that
removed one. -/
def interChanged (s t : BitSet) : BitSet × Bool :=
  let kept := keepLoop t.word 0 s.words.toList false
  (s.withWords kept.1 (length_keepLoop _ _ _) fun i hi ↦ by
    rw [testBit_interLoop, Bool.and_eq_true] at hi
    exact lt_capacity_of_contains hi.1,
    kept.2)

/-- Keeps the members of `s` that are not in `t`, with the capacity of `s`, and says whether that
removed one. -/
def diffChanged (s t : BitSet) : BitSet × Bool :=
  let kept := zipLoop (· &&& ~~~·) s.words.toList t.words.toList false
  (s.withWords kept.1 (length_zipLoop _ _ _) fun i hi ↦ by
    rw [testBit_diffLoop, Bool.and_eq_true] at hi
    exact lt_capacity_of_contains hi.1,
    kept.2)

def union (s t : BitSet) : BitSet :=
  (s.unionChanged t).1

def inter (s t : BitSet) : BitSet :=
  (s.interChanged t).1

def diff (s t : BitSet) : BitSet :=
  (s.diffChanged t).1

@[simp] theorem contains_union (s t : BitSet) (i : Nat) :
    (s.union t).contains i = (s.contains i || t.contains i) := by
  simp only [union, unionChanged, contains_withWords, testBit_unionLoop]

@[simp] theorem contains_inter (s t : BitSet) (i : Nat) :
    (s.inter t).contains i = (s.contains i && t.contains i) := by
  simp only [inter, interChanged, contains_withWords, testBit_interLoop]

@[simp] theorem contains_diff (s t : BitSet) (i : Nat) :
    (s.diff t).contains i = (s.contains i && !t.contains i) := by
  simp only [diff, diffChanged, contains_withWords, testBit_diffLoop]

@[simp] theorem capacity_union (s t : BitSet) :
    (s.union t).capacity = max s.capacity t.capacity :=
  s.capacity_grow t.capacity

def isEmpty (s : BitSet) : Bool :=
  s.words.all (· == 0)

def isSubset (s t : BitSet) : Bool :=
  (List.range s.words.size).all fun k ↦ s.word k &&& ~~~t.word k == 0

/-- Two sets are equal when they have the same members, whatever their capacities. -/
instance : BEq BitSet where
  beq s t := (List.range (max s.words.size t.words.size)).all fun k ↦ s.word k == t.word k

def isStrictSubset (s t : BitSet) : Bool :=
  s.isSubset t && s != t

/-! ### Walks over the members -/

/-- A walk over the members of a set: the number of the word it stands in, the bits of that word
that are still to come, and the words after it. -/
structure Cursor where
  index : Nat
  current : UInt64
  rest : List UInt64

namespace Cursor

/-- Goes on to the first word with a bit to come. -/
def seek? : Nat → UInt64 → List UInt64 → Option Cursor
  | index, current, [] => if current == 0 then none else some ⟨index, current, []⟩
  | index, current, next :: rest =>
    if current == 0 then seek? (index + 1) next rest else some ⟨index, current, next :: rest⟩

/-- The next member and the walk after it. -/
def next? (c : Cursor) : Option (Nat × Cursor) :=
  match seek? c.index c.current c.rest with
  | none => none
  | some c =>
    some (c.index * 64 + trailingZeros c.current,
      { c with current := c.current &&& (c.current - 1) })

/-- The members up to the end of the walk, at most `limit` of them. -/
def take : Nat → Cursor → List Nat
  | 0, _ => []
  | limit + 1, c =>
    match c.next? with
    | none => []
    | some (i, c) => i :: take limit c

end Cursor

def iter (s : BitSet) : Cursor where
  index := 0
  current := s.word 0
  rest := s.words.toList.tail

/-- The members in the order of the walk. There are at most 64 to a word. -/
def toList (s : BitSet) : List Nat :=
  s.iter.take (64 * s.words.size)

def count (s : BitSet) : Nat :=
  s.words.foldl (fun n w ↦ n + ones w) 0

def text (s : BitSet) : String :=
  Text.braced (s.toList.map toString)

end BitSet

end FlowFacts

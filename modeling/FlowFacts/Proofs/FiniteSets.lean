import Mathlib.Data.Finset.Card
import Mathlib.Data.Finset.Range
import FlowFacts.BitSet.Lemmas

/-!
Bit sets are finite sets of indices. A bit set represents an `IndexSet`, its capacity with its
members, when the bits of its words are the members and no bit is set past the capacity. Every
operation keeps the two in step, so after any commands each stored bit set represents what the same
commands make of finite sets, and the answers along the way are those of finite sets. What queries
tell then depends on the members alone.
-/

set_option autoImplicit false
set_option relaxedAutoImplicit false

namespace FlowFacts

/-- A finite set of indices, and the bound up to which it is filled. -/
structure IndexSet where
  capacity : Nat
  members : Finset Nat

namespace BitSet

/-! ### Commands -/

/-- An operation on sets that are stored under numbers. The first five and `meet` replace their
target, the others change it. -/
inductive Op where
  | new (capacity : Nat)
  | full (capacity : Nat)
  | ofList (capacity : Nat) (indices : List Nat)
  | collect (indices : List Nat)
  | copy (source : Nat)
  | clear
  | fill
  | insert (i : Nat)
  | erase (i : Nat)
  | union (other : Nat)
  | inter (other : Nat)
  | diff (other : Nat)
  | meet (first second : Nat)

/-- An operation and the number of the set it acts on or leaves its result in. -/
structure Command where
  target : Nat
  op : Op

namespace Op

/-- The bit set that an operation leaves in its target, and its answer. -/
def onBits (store : Nat → BitSet) (target : Nat) : Op → BitSet × Option Bool
  | .new capacity => (BitSet.new capacity, none)
  | .full capacity => (BitSet.full capacity, none)
  | .ofList capacity indices => (BitSet.ofList capacity indices, none)
  | .collect indices => (BitSet.ofList 0 indices, none)
  | .copy source => (store source, none)
  | .clear => ((store target).clear, none)
  | .fill => ((store target).fill, none)
  | .insert i => ((store target).insertChanged i).map id some
  | .erase i => ((store target).eraseChanged i).map id some
  | .union other => ((store target).unionChanged (store other)).map id some
  | .inter other => ((store target).interChanged (store other)).map id some
  | .diff other => ((store target).diffChanged (store other)).map id some
  | .meet first second => ((store first).union (store second), none)

/-- The smallest capacity from the given one on that has room for the indices. -/
def room (capacity : Nat) (indices : List Nat) : Nat :=
  indices.foldl (fun n i ↦ max n (i + 1)) capacity

/-- The finite set that an operation leaves in its target. -/
def result (store : Nat → IndexSet) (target : Nat) : Op → IndexSet
  | .new capacity => ⟨capacity, ∅⟩
  | .full capacity => ⟨capacity, Finset.range capacity⟩
  | .ofList capacity indices => ⟨room capacity indices, indices.toFinset⟩
  | .collect indices => ⟨room 0 indices, indices.toFinset⟩
  | .copy source => store source
  | .clear => ⟨(store target).capacity, ∅⟩
  | .fill => ⟨(store target).capacity, Finset.range (store target).capacity⟩
  | .insert i => ⟨max (store target).capacity (i + 1), Insert.insert i (store target).members⟩
  | .erase i => ⟨(store target).capacity, (store target).members.erase i⟩
  | .union other =>
    ⟨max (store target).capacity (store other).capacity,
      (store target).members ∪ (store other).members⟩
  | .inter other => ⟨(store target).capacity, (store target).members ∩ (store other).members⟩
  | .diff other => ⟨(store target).capacity, (store target).members \ (store other).members⟩
  | .meet first second =>
    ⟨max (store first).capacity (store second).capacity,
      (store first).members ∪ (store second).members⟩

/-- Which operations answer. -/
def answers : Op → Bool
  | .insert _ | .erase _ | .union _ | .inter _ | .diff _ => true
  | _ => false

/-- The result with the answer, which tells whether the members of the target changed. -/
def onSets (store : Nat → IndexSet) (target : Nat) (op : Op) : IndexSet × Option Bool :=
  let made := op.result store target
  (made, if op.answers then some (decide (made.members ≠ (store target).members)) else none)

end Op

/-- Carries out commands one after another, on a store of any kind of sets. -/
def perform {S : Type} (act : (Nat → S) → Nat → Op → S × Option Bool) (store : Nat → S) :
    List Command → (Nat → S) × List (Option Bool)
  | [] => (store, [])
  | command :: rest =>
    let made := act store command.target command.op
    let final := perform act (Function.update store command.target made.1) rest
    (final.1, made.2 :: final.2)

/-- Two kinds of stores stay related, with equal answers, when each operation keeps them so. -/
theorem perform_related {S T : Type} {act : (Nat → S) → Nat → Op → S × Option Bool}
    {act' : (Nat → T) → Nat → Op → T × Option Bool} {Related : S → T → Prop}
    (hact : ∀ store store', (∀ r, Related (store r) (store' r)) → ∀ target op,
      Related (act store target op).1 (act' store' target op).1 ∧
        (act store target op).2 = (act' store' target op).2)
    (commands : List Command) {store : Nat → S} {store' : Nat → T}
    (h : ∀ r, Related (store r) (store' r)) :
    (∀ r, Related ((perform act store commands).1 r) ((perform act' store' commands).1 r)) ∧
      (perform act store commands).2 = (perform act' store' commands).2 := by
  induction commands generalizing store store' with
  | nil => exact ⟨h, rfl⟩
  | cons command rest ih =>
    obtain ⟨hmade, hanswer⟩ := hact store store' h command.target command.op
    have hnext : ∀ r,
        Related (Function.update store command.target (act store command.target command.op).1 r)
          (Function.update store' command.target
            (act' store' command.target command.op).1 r) := by
      intro r
      by_cases hr : r = command.target
      · subst hr
        simpa only [Function.update_self] using hmade
      · simpa only [Function.update_of_ne hr] using h r
    obtain ⟨hrelated, hanswers⟩ := ih hnext
    exact ⟨hrelated, congrArg₂ List.cons hanswer hanswers⟩

/-! ### Representation -/

/-- The words cover the capacity exactly, their bits are the members, and no bit is set past the
capacity. -/
structure Represents (s : BitSet) (x : IndexSet) : Prop where
  capacity_eq : s.capacity = x.capacity
  size_words : s.words.size = (x.capacity + 63) / 64
  testBit_iff : ∀ {k j : Nat} (_ : k < s.words.size), j < 64 →
    (s.words[k].toNat.testBit j = true ↔ 64 * k + j ∈ x.members)
  testBit_past : ∀ {k j : Nat} (_ : k < s.words.size), j < 64 → x.capacity ≤ 64 * k + j →
    s.words[k].toNat.testBit j = false
  lt_capacity : ∀ {i : Nat}, i ∈ x.members → i < x.capacity

theorem represents_iff {s : BitSet} {x : IndexSet} :
    Represents s x ↔ s.capacity = x.capacity ∧ ∀ i, i ∈ s ↔ i ∈ x.members := by
  constructor
  · rintro ⟨hcapacity, -, htest, -, hlt⟩
    refine ⟨hcapacity, fun i ↦ ?_⟩
    have hsplit : 64 * (i / 64) + i % 64 = i := Nat.div_add_mod i 64
    have hmod : i % 64 < 64 := Nat.mod_lt i (by decide)
    have hmem : i < s.capacity → (i ∈ s ↔ i ∈ x.members) := fun hi ↦ by
      have hbit := htest (div_lt_size_words hi) hmod
      rwa [testBit_words (div_lt_size_words hi) hmod, hsplit] at hbit
    exact ⟨fun hi ↦ (hmem (lt_capacity_of_mem hi)).mp hi,
      fun hi ↦ (hmem (hcapacity ▸ hlt hi)).mpr hi⟩
  · rintro ⟨hcapacity, hmem⟩
    exact {
      capacity_eq := hcapacity
      size_words := hcapacity ▸ s.size_words
      testBit_iff := fun hk hj ↦ by
        rw [testBit_words hk hj]
        exact hmem _
      testBit_past := fun hk hj hle ↦ by
        rw [testBit_words hk hj]
        exact contains_of_capacity_le (hcapacity ▸ hle)
      lt_capacity := fun hi ↦ hcapacity ▸ lt_capacity_of_mem ((hmem _).mpr hi) }

/-! ### Operations -/

theorem capacity_foldl_insert (indices : List Nat) (s : BitSet) :
    (indices.foldl insert s).capacity = Op.room s.capacity indices := by
  induction indices generalizing s with
  | nil => rfl
  | cons i rest ih =>
    rw [List.foldl_cons, ih, capacity_insert]
    rfl

theorem Represents.beq_eq {s t : BitSet} {x y : IndexSet} (hs : Represents s x)
    (ht : Represents t y) : (s == t) = decide (x.members = y.members) := by
  rw [Bool.eq_iff_iff, beq_iff_mem, decide_eq_true_iff, Finset.ext_iff]
  simp only [(represents_iff.mp hs).2, (represents_iff.mp ht).2]

theorem Represents.bne_eq {s t : BitSet} {x y : IndexSet} (hs : Represents s x)
    (ht : Represents t y) : (s != t) = decide (x.members ≠ y.members) := by
  rw [bne, hs.beq_eq ht, decide_not]

namespace Op

variable {store : Nat → BitSet} {sets : Nat → IndexSet}

theorem represents_result (h : ∀ r, Represents (store r) (sets r)) (target : Nat) (op : Op) :
    Represents (op.onBits store target).1 (op.result sets target) := by
  simp only [represents_iff] at h ⊢
  have hcapacity : ∀ r, (store r).capacity = (sets r).capacity := fun r ↦ (h r).1
  have hmem : ∀ r i, i ∈ store r ↔ i ∈ (sets r).members := fun r ↦ (h r).2
  cases op with
  | new capacity => exact ⟨rfl, fun i ↦ by simp [onBits, result]⟩
  | full capacity => exact ⟨rfl, fun i ↦ by simp [onBits, result]⟩
  | ofList capacity indices =>
    exact ⟨capacity_foldl_insert indices (BitSet.new capacity), fun i ↦ by simp [onBits, result]⟩
  | collect indices =>
    exact ⟨capacity_foldl_insert indices (BitSet.new 0), fun i ↦ by simp [onBits, result]⟩
  | copy source => exact h source
  | clear => exact ⟨hcapacity target, fun i ↦ by simp [onBits, result, mem_iff]⟩
  | fill => exact ⟨hcapacity target, fun i ↦ by simp [onBits, result, mem_iff, hcapacity]⟩
  | insert i =>
    refine ⟨?_, fun j ↦ ?_⟩
    · exact ((store target).capacity_insert i).trans
        (congrArg (max · (i + 1)) (hcapacity target))
    · simp [onBits, result, insertChanged_eq, hmem]
  | erase i =>
    refine ⟨?_, fun j ↦ ?_⟩
    · exact ((store target).capacity_erase i).trans (hcapacity target)
    · simp [onBits, result, eraseChanged_eq, hmem]
  | union other =>
    refine ⟨?_, fun i ↦ ?_⟩
    · exact ((store target).capacity_union (store other)).trans
        (congrArg₂ max (hcapacity target) (hcapacity other))
    · simp [onBits, result, unionChanged_eq, hmem]
  | inter other =>
    exact ⟨hcapacity target, fun i ↦ by simp [onBits, result, interChanged_eq, hmem]⟩
  | diff other =>
    exact ⟨hcapacity target, fun i ↦ by simp [onBits, result, diffChanged_eq, hmem]⟩
  | meet first second =>
    refine ⟨?_, fun i ↦ ?_⟩
    · exact ((store first).capacity_union (store second)).trans
        (congrArg₂ max (hcapacity first) (hcapacity second))
    · simp [onBits, result, hmem]

/-- An operation that answers compares the set it leaves with the one it found. -/
theorem answer_onBits (store : Nat → BitSet) (target : Nat) (op : Op) :
    (op.onBits store target).2 =
      if op.answers then some ((op.onBits store target).1 != store target) else none := by
  cases op with
  | insert i =>
    rw [onBits, insertChanged_eq]
    rfl
  | erase i =>
    rw [onBits, eraseChanged_eq]
    rfl
  | union other =>
    rw [onBits, unionChanged_eq]
    rfl
  | inter other =>
    rw [onBits, interChanged_eq]
    rfl
  | diff other =>
    rw [onBits, diffChanged_eq]
    rfl
  | _ => rfl

theorem related_onBits_onSets (h : ∀ r, Represents (store r) (sets r)) (target : Nat) (op : Op) :
    Represents (op.onBits store target).1 (op.onSets sets target).1 ∧
      (op.onBits store target).2 = (op.onSets sets target).2 := by
  have hresult := represents_result h target op
  refine ⟨hresult, ?_⟩
  rw [answer_onBits, hresult.bne_eq (h target)]
  rfl

end Op

/-! ### Queries -/

/-- What queries tell about two bit sets with the given members. The walk over the first ends after
its list of members. -/
structure Observed (s t : BitSet) (x y : Finset Nat) : Prop where
  contains : ∀ i, s.contains i = decide (i ∈ x)
  isEmpty : s.isEmpty = decide (x = ∅)
  count : s.count = x.card
  isSubset : s.isSubset t = decide (x ⊆ y)
  isStrictSubset : s.isStrictSubset t = decide (x ⊂ y)
  beq : (s == t) = decide (x = y)
  yields : s.iter.Yields s.toList
  ascending : s.toList.Pairwise (· < ·)
  mem_toList : ∀ i, i ∈ s.toList ↔ i ∈ x

theorem Represents.observed {s t : BitSet} {x y : IndexSet} (hs : Represents s x)
    (ht : Represents t y) : Observed s t x.members y.members := by
  have hmem := (represents_iff.mp hs).2
  have hmem' := (represents_iff.mp ht).2
  have hsubset : s.isSubset t = decide (x.members ⊆ y.members) := by
    rw [Bool.eq_iff_iff, isSubset_iff, decide_eq_true_iff, Finset.subset_iff]
    simp only [hmem, hmem']
  have hlist : ∀ i, i ∈ s.toList ↔ i ∈ x.members := fun i ↦ BitSet.mem_toList.trans (hmem i)
  exact {
    contains := fun i ↦ by
      rw [Bool.eq_iff_iff, decide_eq_true_iff]
      exact hmem i
    isEmpty := by
      rw [Bool.eq_iff_iff, isEmpty_iff, decide_eq_true_iff, Finset.eq_empty_iff_forall_notMem]
      simp only [hmem]
    count := by
      have hmembers : s.toList.toFinset = x.members := by
        ext i
        rw [List.mem_toFinset, hlist]
      have hnodup : s.toList.Nodup := s.pairwise_toList.imp Nat.ne_of_lt
      rw [count_eq_length, ← hmembers, List.toFinset_card_of_nodup hnodup]
    isSubset := hsubset
    isStrictSubset := by
      rw [isStrictSubset, hsubset, hs.bne_eq ht, ← Bool.decide_and, decide_eq_decide]
      exact Finset.ssubset_iff_subset_ne.symm
    beq := hs.beq_eq ht
    yields := s.yields_toList
    ascending := s.pairwise_toList
    mem_toList := hlist }

/-! ### Word accesses -/

/-- The operations that reach for the word of an index find it stored. An index past the capacity
is absent, and to erase it changes nothing. -/
structure InRange (s : BitSet) : Prop where
  contains : ∀ {i : Nat}, i < s.capacity → ∃ _ : i / 64 < s.words.size,
    s.contains i = (s.words[i / 64] &&& bit (i % 64) != 0)
  insert : ∀ i : Nat, ∃ _ : i / 64 < (s.grow (i + 1)).words.size,
    (s.insertChanged i).1.words = (s.grow (i + 1)).words.set (i / 64)
        ((s.grow (i + 1)).words[i / 64] ||| bit (i % 64)) ∧
      (s.insertChanged i).2 = ((s.grow (i + 1)).words[i / 64] &&& bit (i % 64) == 0)
  erase : ∀ {i : Nat}, i < s.capacity → ∃ _ : i / 64 < s.words.size,
    (s.eraseChanged i).1.words =
        s.words.set (i / 64) (s.words[i / 64] &&& ~~~bit (i % 64)) ∧
      (s.eraseChanged i).2 = (s.words[i / 64] &&& bit (i % 64) != 0)
  past : ∀ {i : Nat}, s.capacity ≤ i → s.contains i = false ∧ s.eraseChanged i = (s, false)

theorem modify_eq_set {words : Array UInt64} {k : Nat} (hk : k < words.size)
    (f : UInt64 → UInt64) : words.modify k f = words.set k (f words[k]) := by
  ext j hj hj'
  · rw [Array.size_modify, Array.size_set]
  · rw [Array.getElem_modify, Array.getElem_set]
    split_ifs with h
    · subst h
      rfl
    · rfl

theorem word_eq_getElem {s : BitSet} {k : Nat} (hk : k < s.words.size) : s.word k = s.words[k] := by
  simp [word, hk]

theorem inRange (s : BitSet) : InRange s where
  contains {i} hi := by
    refine ⟨div_lt_size_words hi, ?_⟩
    rw [BitSet.contains, decide_eq_true hi, Bool.true_and, word_eq_getElem (div_lt_size_words hi)]
  insert i := by
    have hk := div_lt_size_words (s.lt_capacity_grow i)
    refine ⟨hk, modify_eq_set hk (· ||| bit (i % 64)), ?_⟩
    rw [← word_eq_getElem hk]
    rfl
  erase {i} hi := by
    have hk := div_lt_size_words hi
    refine ⟨hk, ?_⟩
    rw [eraseChanged, dif_pos hi, ← word_eq_getElem hk]
    exact ⟨word_eq_getElem hk ▸ modify_eq_set hk (· &&& ~~~bit (i % 64)), rfl⟩
  past {i} hi := by
    refine ⟨contains_of_capacity_le hi, ?_⟩
    rw [eraseChanged, dif_neg (Nat.not_lt.mpr hi)]

/-! ### Runs -/

/-- Commands on stored bit sets, all empty at first, do what the same commands do to finite sets:
the answers are equal, each bit set represents the finite set under its number, no access to a word
is out of range, and queries tell what the members alone determine. -/
theorem commands_refine_finite_sets (commands : List Command) :
    let bits := perform Op.onBits (fun _ ↦ ∅) commands
    let sets := perform Op.onSets (fun _ ↦ ⟨0, ∅⟩) commands
    bits.2 = sets.2 ∧
    (∀ r, Represents (bits.1 r) (sets.1 r)) ∧
    (∀ r, InRange (bits.1 r)) ∧
    ∀ r r', Observed (bits.1 r) (bits.1 r') (sets.1 r).members (sets.1 r').members := by
  intro bits sets
  have hstart : ∀ _ : Nat, Represents ∅ ⟨0, ∅⟩ := fun _ ↦
    represents_iff.mpr ⟨rfl, fun i ↦ by simp⟩
  obtain ⟨hrelated, hanswers⟩ :=
    perform_related (fun _ _ h ↦ Op.related_onBits_onSets h) commands hstart
  exact ⟨hanswers, hrelated, fun r ↦ (bits.1 r).inRange,
    fun r r' ↦ (hrelated r).observed (hrelated r')⟩

end BitSet

end FlowFacts

import FlowFacts.Proofs.GreatestSolution

/-!
Analyses whose facts are sets of indices, joined by union, and whose instructions make some members
and end others. They are lawful, and their results are exact: an index is in the fact at a point if
and only if facts can carry it there from an instruction that makes it without passing one that
ends it. For a forward analysis that is a path of control from the instruction to the point, for a
backward one a path from the point to the instruction.
-/

set_option autoImplicit false
set_option relaxedAutoImplicit false

namespace FlowFacts

theorem BitSet.meetLaws_union : MeetLaws BitSet.union :=
  .of_pointwise BitSet.contains (fun _ _ ↦ BitSet.beq_iff) BitSet.contains_union Bool.or_comm
    Bool.or_assoc Bool.or_self

namespace Analysis

/-- Facts are joined by union, and an instruction adds what it makes to what it does not end. -/
structure GenKill (a : Analysis BitSet) (gen kill : Instr → Nat → Prop) : Prop where
  meet_eq : a.meet = BitSet.union
  notMem_initial : ∀ n : Nat, n ∉ a.initial
  mem_transfer : ∀ {i : Instr} {s : BitSet} {n : Nat},
    n ∈ a.transfer i s ↔ gen i n ∨ n ∈ s ∧ ¬kill i n

variable {a : Analysis BitSet} {gen kill : Instr → Nat → Prop}

/-- Larger sets are smaller facts. -/
theorem GenKill.below_iff (ha : a.GenKill gen kill) {s t : BitSet} :
    a.Below s t ↔ ∀ n ∈ t, n ∈ s := by
  rw [Below, ha.meet_eq, BitSet.beq_iff_mem]
  simp only [BitSet.mem_union, or_iff_left_iff_imp]

theorem GenKill.lawful (ha : a.GenKill gen kill) : a.Lawful := by
  have hmeet : MeetLaws a.meet := ha.meet_eq ▸ BitSet.meetLaws_union
  refine { hmeet with
    transfer_congr := fun i {x x'} hx ↦ ?_, initial_meet := fun x ↦ ?_,
    transfer_mono := fun i {x y} hxy ↦ ?_ }
  · rw [BitSet.beq_iff_mem] at hx
    simp only [BitSet.beq_iff_mem, ha.mem_transfer, hx, implies_true]
  · simp only [ha.meet_eq, BitSet.beq_iff_mem, BitSet.mem_union, ha.notMem_initial, false_or,
      implies_true]
  · rw [ha.below_iff] at hxy ⊢
    intro n hn
    rw [ha.mem_transfer] at hn ⊢
    exact hn.imp_right fun h ↦ ⟨hxy n h.1, h.2⟩

end Analysis

/-- An index comes to a point from an instruction that makes it, past none that ends it. -/
inductive Carried (direction : Direction) (g : FlowGraph) (gen kill : Instr → Nat → Prop)
    (n : Nat) : Point → Prop
  | made {p q : Point} {i : Instr} (hflow : Flow direction g p (some i) q) (hgen : gen i n) :
      Carried direction g gen kill n q
  | kept {p q : Point} {i : Instr} (hflow : Flow direction g p (some i) q) (hkill : ¬kill i n)
      (hcarried : Carried direction g gen kill n p) : Carried direction g gen kill n q
  | moved {p q : Point} (hflow : Flow direction g p none q)
      (hcarried : Carried direction g gen kill n p) : Carried direction g gen kill n q

namespace Analysis

variable {a : Analysis BitSet} {gen kill : Instr → Nat → Prop} {g : FlowGraph}

/-- To have only members that are carried there spreads along the steps of facts. -/
theorem GenKill.closed_carried (ha : a.GenKill gen kill) (g : FlowGraph) :
    a.Closed g fun q s ↦ ∀ n ∈ s, Carried a.direction g gen kill n q := by
  refine ⟨fun q n hn ↦ absurd hn (ha.notMem_initial n), fun hx hy n hn ↦ ?_,
    fun hflow hx n hn ↦ .moved hflow (hx n hn), fun hflow hx n hn ↦ ?_⟩
  · rw [ha.meet_eq, BitSet.mem_union] at hn
    exact hn.elim (hx n) (hy n)
  · rcases ha.mem_transfer.mp hn with hgen | ⟨hmem, hkill⟩
    · exact .made hflow hgen
    · exact .kept hflow hkill (hx n hmem)

/-- A solution has every member that is carried to its point. -/
theorem GenKill.mem_of_carried (ha : a.GenKill gen kill) {fact : Point → BitSet}
    (hsolves : a.Solves g fact) {n : Nat} {q : Point}
    (hcarried : Carried a.direction g gen kill n q) : n ∈ fact q := by
  induction hcarried with
  | made hflow hgen =>
    have hmem := BitSet.beq_iff_mem.mp (hsolves.beq_transfer_of_flow hflow) n
    exact hmem.mpr (ha.mem_transfer.mpr (Or.inl hgen))
  | kept hflow hkill _ ih =>
    have hmem := BitSet.beq_iff_mem.mp (hsolves.beq_transfer_of_flow hflow) n
    exact hmem.mpr (ha.mem_transfer.mpr (Or.inr ⟨ih, hkill⟩))
  | moved hflow _ ih => exact ha.below_iff.mp (hsolves.below_of_flow ha.lawful hflow) n ih

/-- The results of a set analysis are exactly what is carried to each point. -/
theorem GenKill.mem_at_iff (ha : a.GenKill gen kill) (hg : g.WellFormed) {c : Config}
    {r : Results BitSet} (hr : a.solve c g = .ok r) (n : Nat) (q : Point) :
    n ∈ r.at q ↔ Carried a.direction g gen kill n q := by
  constructor
  · exact holds_of_solve_ok (ha.closed_carried g) hr q n
  · exact ha.mem_of_carried (solves_of_solve_ok hg ha.lawful.toRespectful hr)

end Analysis

section Paths

variable {g : FlowGraph} {gen kill : Instr → Nat → Prop} {n : Nat}

theorem Carried.along_path (hg : g.WellFormed) {p q : Point} {executed : List Instr}
    (hpath : Path g p executed q) (hfree : ∀ j ∈ executed, ¬kill j n)
    (hcarried : Carried .forward g gen kill n p) : Carried .forward g gen kill n q := by
  induction hpath with
  | refl p => exact hcarried
  | @cons p q r first rest hstep _ ih =>
    obtain ⟨hfirst, hrest⟩ := List.forall_mem_append.mp hfree
    refine ih hrest ?_
    have hflow := (flow_forward_iff hg).mpr hstep
    cases first with
    | none => exact .moved hflow hcarried
    | some i => exact .kept hflow (hfirst i List.mem_cons_self) hcarried

theorem Carried.against_path {p q : Point} {executed : List Instr} (hpath : Path g p executed q)
    (hfree : ∀ j ∈ executed, ¬kill j n) (hcarried : Carried .backward g gen kill n q) :
    Carried .backward g gen kill n p := by
  induction hpath with
  | refl p => exact hcarried
  | @cons p q r first rest hstep _ ih =>
    obtain ⟨hfirst, hrest⟩ := List.forall_mem_append.mp hfree
    have hnext := ih hrest hcarried
    have hflow := flow_backward_iff.mpr hstep
    cases first with
    | none => exact .moved hflow hnext
    | some i => exact .kept hflow (hfirst i List.mem_cons_self) hnext

/-- Going forward, an index is carried along a path from just after an instruction that makes
it. -/
theorem carried_forward_iff (hg : g.WellFormed) {q : Point} :
    Carried .forward g gen kill n q ↔ ∃ i ∈ g.instrs, gen i n ∧
      ∃ executed, Path g (.after i.id) executed q ∧ ∀ j ∈ executed, ¬kill j n := by
  constructor
  · intro h
    induction h with
    | made hflow hgen =>
      cases hflow with
      | execute hi => exact ⟨_, hi, hgen, [], .refl _, by simp⟩
    | kept hflow hkill _ ih =>
      obtain ⟨i, hi, hgen, executed, hpath, hfree⟩ := ih
      refine ⟨i, hi, hgen, _, hpath.concat ((flow_forward_iff hg).mp hflow), ?_⟩
      rw [List.forall_mem_append]
      exact ⟨hfree, by simpa using hkill⟩
    | moved hflow _ ih =>
      obtain ⟨i, hi, hgen, executed, hpath, hfree⟩ := ih
      refine ⟨i, hi, hgen, _, hpath.concat ((flow_forward_iff hg).mp hflow), ?_⟩
      simpa using hfree
  · rintro ⟨i, hi, hgen, executed, hpath, hfree⟩
    exact .along_path hg hpath hfree (.made (.execute hi) hgen)

/-- Going backward, an index is carried against a path that leads to just before an instruction
that makes it. -/
theorem carried_backward_iff {q : Point} :
    Carried .backward g gen kill n q ↔ ∃ i ∈ g.instrs, gen i n ∧
      ∃ executed, Path g q executed (.before i.id) ∧ ∀ j ∈ executed, ¬kill j n := by
  constructor
  · intro h
    induction h with
    | made hflow hgen =>
      cases hflow with
      | execute hi => exact ⟨_, hi, hgen, [], .refl _, by simp⟩
    | kept hflow hkill _ ih =>
      obtain ⟨i, hi, hgen, executed, hpath, hfree⟩ := ih
      refine ⟨i, hi, hgen, _, .cons (flow_backward_iff.mp hflow) hpath, ?_⟩
      rw [List.forall_mem_append]
      exact ⟨by simpa using hkill, hfree⟩
    | moved hflow _ ih =>
      obtain ⟨i, hi, hgen, executed, hpath, hfree⟩ := ih
      refine ⟨i, hi, hgen, _, .cons (flow_backward_iff.mp hflow) hpath, ?_⟩
      simpa using hfree
  · rintro ⟨i, hi, hgen, executed, hpath, hfree⟩
    exact .against_path hpath hfree (.made (.execute hi) hgen)

end Paths

end FlowFacts

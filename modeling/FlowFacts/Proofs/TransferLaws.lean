import FlowFacts.Proofs.ConstantStates
import FlowFacts.Proofs.LiveVariables
import FlowFacts.Proofs.ReachingDefinitions

/-!
The laws of the shipped analyses. Their facts form semilattices under the initial fact, up to an
equality that looks only at what a fact says and not at how much room it takes, and no transfer can
tell equal facts apart. The transfers of the two set analyses remove one set of indices and add
another, so they pass unions: meeting two facts before an instruction or after it is the same.
-/

set_option autoImplicit false
set_option relaxedAutoImplicit false

namespace FlowFacts

/-! ### Semilattices with an identity -/

/-- Meeting the fact on either side changes nothing. -/
def IsIdentity {L : Type} [BEq L] (meet : L → L → L) (fact : L) : Prop :=
  ∀ x : L, meet fact x == x ∧ meet x fact == x

/-- Facts meet by the laws under the initial fact, and transfers take equal facts to equal facts. -/
structure Analysis.FactLaws {L : Type} [BEq L] (a : Analysis L) : Prop extends MeetLaws a.meet where
  isIdentity_initial : IsIdentity a.meet a.initial
  transfer_congr : ∀ (i : Instr) {x y : L}, x == y → a.transfer i x == a.transfer i y

theorem ConstFact.isIdentity_undefined : IsIdentity meet undefined := fun x ↦ by simp

theorem ConstState.isIdentity_new (varCount : Nat) : IsIdentity meet (new varCount) := fun s ↦
  ⟨beq_iff.mpr fun v ↦ by simp, beq_iff.mpr fun v ↦ by simp⟩

theorem BitSet.isIdentity_new (capacity : Nat) : IsIdentity union (new capacity) := fun s ↦
  ⟨beq_iff.mpr fun n ↦ by simp, beq_iff.mpr fun n ↦ by simp⟩

/-- Undefined variables at the end of a state do not count. -/
theorem ConstState.beq_append_undefined (s : ConstState) (count : Nat) :
    ({ values := s.values ++ Array.replicate count .undefined } : ConstState) == s :=
  beq_iff.mpr fun v ↦ getD_append_replicate s.values count v .undefined

theorem BitSet.grow_beq (s : BitSet) (capacity : Nat) : s.grow capacity == s :=
  beq_iff.mpr (contains_grow s capacity)

namespace Analysis

theorem GenKill.factLaws {a : Analysis BitSet} {gen kill : Instr → Nat → Prop}
    (ha : a.GenKill gen kill) : a.FactLaws := by
  have hmeet : MeetLaws a.meet := ha.meet_eq ▸ BitSet.meetLaws_union
  refine { hmeet with
    isIdentity_initial := fun s ↦ ⟨ha.lawful.initial_meet s, ?_⟩
    transfer_congr := ha.lawful.transfer_congr }
  exact BEq.trans (hmeet.meet_comm s a.initial) (ha.lawful.initial_meet s)

theorem factLaws_constants (g : FlowGraph) (fold : Bool) : (ConstProp.analysis g fold).FactLaws :=
  { ConstState.meetLaws with
    isIdentity_initial := ConstState.isIdentity_new g.varCount
    transfer_congr := fun i _ _ h ↦ ConstState.transfer_congr i h }

/-- The facts of one variable, states, sets and the facts of every shipped analysis form
semilattices with an identity. Equality is agreement at every variable or index, and transfers
respect it. -/
theorem shipped_facts_form_semilattices :
    (MeetLaws ConstFact.meet ∧ IsIdentity ConstFact.meet .undefined ∧
      ∀ x y : ConstFact, x == y ↔ x = y) ∧
    (MeetLaws ConstState.meet ∧ (∀ varCount, IsIdentity ConstState.meet (.new varCount)) ∧
      (∀ s t : ConstState, s == t ↔ ∀ v, s.get v = t.get v) ∧
      ∀ (s : ConstState) (count : Nat),
        ({ values := s.values ++ Array.replicate count .undefined } : ConstState) == s) ∧
    (MeetLaws BitSet.union ∧ (∀ capacity, IsIdentity BitSet.union (.new capacity)) ∧
      (∀ s t : BitSet, s == t ↔ ∀ n, n ∈ s ↔ n ∈ t) ∧
      ∀ (s : BitSet) (capacity : Nat), s.grow capacity == s) ∧
    (∀ t : DefTable, t.analysis.FactLaws) ∧
    (∀ g : FlowGraph, (Liveness.analysis g).FactLaws) ∧
    ∀ (g : FlowGraph) (fold : Bool), (ConstProp.analysis g fold).FactLaws := by
  refine ⟨⟨ConstFact.meetLaws, ConstFact.isIdentity_undefined, fun _ _ ↦ beq_iff_eq⟩, ?_, ?_,
    fun t ↦ t.genKill_analysis.factLaws, fun g ↦ (Liveness.genKill_analysis g).factLaws,
    factLaws_constants⟩
  · exact ⟨ConstState.meetLaws, ConstState.isIdentity_new, fun _ _ ↦ ConstState.beq_iff,
      ConstState.beq_append_undefined⟩
  · exact ⟨BitSet.meetLaws_union, BitSet.isIdentity_new, fun _ _ ↦ BitSet.beq_iff_mem,
      BitSet.grow_beq⟩

/-! ### Distributive transfers -/

/-- An instruction removes one set of indices from every fact and adds another. Hence its transfer
passes meets and keeps the order of facts. -/
structure TransfersBy (a : Analysis BitSet) (i : Instr) (gen kill : BitSet) : Prop where
  transfer_beq : ∀ s : BitSet, a.transfer i s == (s.diff kill).union gen
  transfer_meet : ∀ s t : BitSet,
    a.transfer i (a.meet s t) == a.meet (a.transfer i s) (a.transfer i t)
  transfer_mono : ∀ {s t : BitSet}, a.Below s t → a.Below (a.transfer i s) (a.transfer i t)

theorem GenKill.transfersBy {a : Analysis BitSet} {gen kill : Instr → Nat → Prop}
    (ha : a.GenKill gen kill) {i : Instr} {made ended : BitSet} (hmade : ∀ n, n ∈ made ↔ gen i n)
    (hended : ∀ n, n ∈ ended ↔ kill i n) : a.TransfersBy i made ended where
  transfer_beq s := by
    refine BitSet.beq_iff_mem.mpr fun n ↦ ?_
    rw [ha.mem_transfer, BitSet.mem_union, BitSet.mem_diff, hmade, hended, or_comm]
  transfer_meet s t := by
    refine BitSet.beq_iff_mem.mpr fun n ↦ ?_
    simp only [ha.meet_eq, BitSet.mem_union, ha.mem_transfer, or_and_right]
    exact or_or_distrib_left
  transfer_mono hst := ha.lawful.transfer_mono i hst

end Analysis

theorem Liveness.transfersBy (g : FlowGraph) (i : Instr) :
    (analysis g).TransfersBy i (gen g i) (kill g i) := by
  refine (genKill_analysis g).transfersBy (fun v ↦ ?_) fun v ↦ ?_
  · rw [gen, BitSet.mem_ofList, Instr.mem_reads_iff]
  · rw [kill, BitSet.mem_ofList, Option.mem_toList]

theorem DefTable.transfersBy (t : DefTable) (i : Instr) :
    t.analysis.TransfersBy i (t.gen i) (t.kill i) :=
  t.genKill_analysis.transfersBy (fun _ ↦ Iff.rfl) fun _ ↦ Iff.rfl

theorem Instr.isCall_eq_false_of_target? {i : Instr} {v : Nat} (h : i.target? = some v) :
    i.isCall = false := by
  obtain ⟨e, hstmt⟩ := ConstState.exists_assign_of_target? h
  rw [isCall, hstmt]

namespace DefTable

variable {g : FlowGraph} {i : Instr} {n : Nat}

/-- An instruction does not end what it makes. -/
theorem notMem_kill_of_mem_gen (hg : g.WellFormed) (hi : i ∈ g.instrs)
    (h : n ∈ (ofGraph g).gen i) : n ∉ (ofGraph g).kill i := by
  obtain ⟨d, hd, hinstr⟩ := (mem_gen hg).mp h
  have hmade := madeBy_of_instr_eq hg (Array.mem_of_getElem? hd) hi hinstr
  rw [mem_kill_iff hg hd]
  rintro (⟨-, hother⟩ | ⟨hcall, -⟩)
  · exact hother hinstr
  · exact absurd hcall (by simp [Instr.isCall_eq_false_of_target? hmade.target])

/-- An assignment makes or ends every definition of its variable, and no other. -/
theorem mem_gen_union_kill_iff (hg : g.WellFormed) (hi : i ∈ g.instrs) {v : Nat}
    (htarget : i.target? = some v) : n ∈ ((ofGraph g).gen i).union ((ofGraph g).kill i) ↔
      ∃ d ∈ (ofGraph g).ofVar v, (ofGraph g).defs[n]? = some d := by
  rw [BitSet.mem_union]
  constructor
  · rintro (hgen | hkill)
    · obtain ⟨d, hd, hinstr⟩ := (mem_gen hg).mp hgen
      have hmade := madeBy_of_instr_eq hg (Array.mem_of_getElem? hd) hi hinstr
      have hvar : d.var = v := Option.some.inj (hmade.target.symm.trans htarget)
      exact ⟨d, mem_ofVar.mpr ⟨Array.mem_of_getElem? hd, hvar⟩, hd⟩
    · obtain ⟨d, hd, hkilled⟩ := (mem_kill hg).mp hkill
      rcases hkilled with ⟨hwrites, -⟩ | ⟨hcall, -⟩
      · have hvar : d.var = v := Option.some.inj (hwrites.symm.trans htarget)
        exact ⟨d, mem_ofVar.mpr ⟨Array.mem_of_getElem? hd, hvar⟩, hd⟩
      · exact absurd hcall (by simp [Instr.isCall_eq_false_of_target? htarget])
  · rintro ⟨d, hmem, hd⟩
    have hwrites : i.target? = some d.var := by rw [htarget, (mem_ofVar.mp hmem).2]
    by_cases hinstr : d.instr = some i.id
    · exact Or.inl ((mem_gen_iff hg hd).mpr hinstr)
    · exact Or.inr ((mem_kill_iff hg hd).mpr (Or.inl ⟨hwrites, hinstr⟩))

end DefTable

namespace Analysis

/-- On a built graph, the transfers of reaching definitions and liveness remove and add the sets
that the analyses give for the instruction. For reaching definitions these are disjoint, and for an
assignment they make up the definitions of its variable. -/
theorem set_transfers_distribute {g : FlowGraph} {draft : Draft} (hbuild : draft.build = .ok g)
    {i : Instr} (hi : i ∈ g.instrs) :
    let t := DefTable.ofGraph g
    t.analysis.TransfersBy i (t.gen i) (t.kill i) ∧
    (Liveness.analysis g).TransfersBy i (Liveness.gen g i) (Liveness.kill g i) ∧
    (∀ n ∈ t.gen i, n ∉ t.kill i) ∧
    ∀ v, i.target? = some v → ∀ n,
      n ∈ (t.gen i).union (t.kill i) ↔ ∃ d ∈ t.ofVar v, t.defs[n]? = some d := by
  intro t
  have hg := draft.wellFormed_of_build hbuild
  exact ⟨t.transfersBy i, Liveness.transfersBy g i,
    fun n hn ↦ DefTable.notMem_kill_of_mem_gen hg hi hn,
    fun v htarget n ↦ DefTable.mem_gen_union_kill_iff hg hi htarget⟩

/-- A sum that is assigned to one of its operands. The other one is past the end of the variables,
as are members of the facts. -/
theorem set_transfers_distribute_selfLoop :
    let g := Draft.selfLoop.toFlowGraph
    let t := DefTable.ofGraph g
    let live := Liveness.analysis g
    let i : Instr := ⟨1, .assign 0 (.binary .add (.var 0) (.var 1))⟩
    let low := BitSet.ofList 0 [0, 2, 90]
    let high := BitSet.ofList 5 [2]
    Draft.selfLoop.build = .ok g ∧ i ∈ g.instrs ∧ g.varCount = 1 ∧
      live.transfer i low == (low.diff (Liveness.kill g i)).union (Liveness.gen g i) ∧
      live.transfer i (live.meet low high) == live.meet (live.transfer i low)
        (live.transfer i high) ∧
      live.Below low high ∧ live.Below (live.transfer i low) (live.transfer i high) ∧
      1 ∈ t.gen i ∧ 1 ∉ t.kill i ∧ i.target? = some 0 ∧
      (0 ∈ (t.gen i).union (t.kill i) ↔ ∃ d ∈ t.ofVar 0, t.defs[0]? = some d) := by
  intro g t live i low high
  have hbuild : Draft.selfLoop.build = .ok g := rfl
  have hi : i ∈ g.instrs := by decide
  obtain ⟨-, hlive, hdisjoint, hunion⟩ := set_transfers_distribute hbuild hi
  have hbelow : live.Below low high :=
    (Liveness.genKill_analysis g).below_iff.mpr fun n hn ↦ by
      simp only [low, high, BitSet.mem_ofList, List.mem_singleton] at hn ⊢
      simp [hn]
  have hgen : 1 ∈ t.gen i := by decide
  exact ⟨hbuild, hi, rfl, hlive.transfer_beq low, hlive.transfer_meet low high, hbelow,
    hlive.transfer_mono hbelow, hgen, hdisjoint 1 hgen, rfl, hunion 0 rfl 0⟩

end Analysis

end FlowFacts

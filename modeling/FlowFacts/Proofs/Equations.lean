import FlowFacts.Proofs.ProgramPoints

/-!
The dataflow equations and what an analysis promises. Equality of facts is the analysis's own test,
so the equations and the laws of a meet hold up to it. A respectful analysis cannot tell equal facts
apart; a lawful one also has a meet that makes its facts a semilattice under the initial fact, with
monotone transfer. Along a step of facts, a solution of a lawful analysis never rises.
-/

set_option autoImplicit false
set_option relaxedAutoImplicit false

namespace FlowFacts

/-- Facts form a semilattice up to their equality, an equivalence that the meet respects. -/
structure MeetLaws {L : Type} [BEq L] (meet : L → L → L) : Prop where
  equivalence : Equivalence fun x y : L ↦ (x == y) = true
  meet_congr : ∀ {x x' y y' : L}, x == x' → y == y' → meet x y == meet x' y'
  meet_comm : ∀ x y : L, meet x y == meet y x
  meet_assoc : ∀ x y z : L, meet (meet x y) z == meet x (meet y z)
  meet_self : ∀ x : L, meet x x == x

/-- Facts that are equal when they agree at every index, and meet index by index, inherit the laws
from what they hold there. -/
theorem MeetLaws.of_pointwise {L V : Type} [BEq L] {meet : L → L → L} (view : L → Nat → V)
    {op : V → V → V} (hbeq : ∀ x y : L, x == y ↔ ∀ n, view x n = view y n)
    (hmeet : ∀ x y n, view (meet x y) n = op (view x n) (view y n))
    (hcomm : ∀ u v, op u v = op v u) (hassoc : ∀ u v w, op (op u v) w = op u (op v w))
    (hself : ∀ u, op u u = u) : MeetLaws meet where
  equivalence := by
    refine ⟨fun x ↦ (hbeq x x).mpr fun _ ↦ rfl, fun {x y} hxy ↦ ?_, fun {x y z} hxy hyz ↦ ?_⟩
    · exact (hbeq y x).mpr fun n ↦ ((hbeq x y).mp hxy n).symm
    · exact (hbeq x z).mpr fun n ↦ ((hbeq x y).mp hxy n).trans ((hbeq y z).mp hyz n)
  meet_congr {x x' y y'} hx hy := by
    refine (hbeq _ _).mpr fun n ↦ ?_
    rw [hmeet, hmeet, (hbeq x x').mp hx n, (hbeq y y').mp hy n]
  meet_comm x y := (hbeq _ _).mpr fun n ↦ by rw [hmeet, hmeet, hcomm]
  meet_assoc x y z := (hbeq _ _).mpr fun n ↦ by simp only [hmeet, hassoc]
  meet_self x := (hbeq _ _).mpr fun n ↦ by rw [hmeet, hself]

namespace Analysis

variable {L : Type} [BEq L]

/-- The equations of facts that come to each block from its sources and pass its instructions along
a path. -/
structure FlowEquations (a : Analysis L) (g : FlowGraph) (sources : Block → List Nat)
    (path : Block → List Instr) (enter leave enterInstr leaveInstr : Nat → L) : Prop where
  entering : ∀ {b : Nat} {block : Block}, g.block? b = some block →
    enter b == (sources block).foldl (fun fact source ↦ a.meet fact (leave source)) a.initial
  first : ∀ {b : Nat} {block : Block} {i : Instr}, g.block? b = some block →
    (path block).head? = some i → enterInstr i.id == enter b
  passing : ∀ {b : Nat} {block : Block} {i : Instr}, g.block? b = some block → i ∈ path block →
    leaveInstr i.id == a.transfer i (enterInstr i.id)
  next : ∀ {b : Nat} {block : Block} {i j : Instr}, g.block? b = some block →
    [i, j] <:+: path block → enterInstr j.id == leaveInstr i.id
  last : ∀ {b : Nat} {block : Block} {i : Instr}, g.block? b = some block →
    (path block).getLast? = some i → leave b == leaveInstr i.id
  empty : ∀ {b : Nat} {block : Block}, g.block? b = some block → path block = [] →
    leave b == enter b

/-- Facts at the points of a graph solve its equations: going forward they come from the
predecessors and pass the instructions in their order, going backward they come from the successors
and pass the instructions in reverse. -/
def Solves (a : Analysis L) (g : FlowGraph) (fact : Point → L) : Prop :=
  match a.direction with
  | .forward =>
    a.FlowEquations g Block.preds Block.instrs
      (fun b ↦ fact (.blockStart b)) (fun b ↦ fact (.blockEnd b))
      (fun i ↦ fact (.before i)) (fun i ↦ fact (.after i))
  | .backward =>
    a.FlowEquations g Block.succs (fun block ↦ block.instrs.reverse)
      (fun b ↦ fact (.blockEnd b)) (fun b ↦ fact (.blockStart b))
      (fun i ↦ fact (.after i)) (fun i ↦ fact (.before i))

theorem solves_iff {a : Analysis L} {g : FlowGraph} {fact : Point → L} :
    a.Solves g fact ↔
      a.FlowEquations g a.direction.sources a.direction.path
        (fun b ↦ fact (a.direction.enter b)) (fun b ↦ fact (a.direction.leave b))
        (fun i ↦ fact (a.direction.enterInstr i)) (fun i ↦ fact (a.direction.leaveInstr i)) := by
  unfold Solves
  cases a.direction <;> exact Iff.rfl

theorem solves_of_isEmpty {a : Analysis L} {g : FlowGraph} (hempty : g.isEmpty = true)
    (fact : Point → L) : a.Solves g fact := by
  have habsurd : ∀ {b : Nat} {block : Block} {P : Prop}, g.block? b = some block → P :=
    fun hb ↦ absurd hempty (by simp [FlowGraph.isEmpty_eq_false_of_block? hb])
  rw [solves_iff]
  exact ⟨fun hb ↦ habsurd hb, fun hb ↦ habsurd hb, fun hb ↦ habsurd hb, fun hb ↦ habsurd hb,
    fun hb ↦ habsurd hb, fun hb ↦ habsurd hb⟩

/-- Meet and transfer take equal facts to equal facts. -/
structure Respectful (a : Analysis L) : Prop where
  meet_congr : ∀ {x x' y y' : L}, x == x' → y == y' → a.meet x y == a.meet x' y'
  transfer_congr : ∀ (i : Instr) {x x' : L}, x == x' → a.transfer i x == a.transfer i x'

theorem respectful_of_lawfulBEq [LawfulBEq L] (a : Analysis L) : a.Respectful := by
  refine ⟨fun {x x' y y'} hx hy ↦ ?_, fun i {x x'} hx ↦ ?_⟩
  · rw [eq_of_beq hx, eq_of_beq hy]
    exact BEq.rfl
  · rw [eq_of_beq hx]
    exact BEq.rfl

/-- The order of facts. -/
def Below (a : Analysis L) (x y : L) : Prop :=
  a.meet x y == x

/-- The contract of an analysis. -/
structure Lawful (a : Analysis L) : Prop extends Respectful a where
  meet_comm : ∀ x y : L, a.meet x y == a.meet y x
  meet_assoc : ∀ x y z : L, a.meet (a.meet x y) z == a.meet x (a.meet y z)
  meet_self : ∀ x : L, a.meet x x == x
  initial_meet : ∀ x : L, a.meet a.initial x == x
  transfer_mono : ∀ (i : Instr) {x y : L}, a.Below x y → a.Below (a.transfer i x) (a.transfer i y)

variable [EquivBEq L] {a : Analysis L} {x y z : L}

theorem Below.congr (ha : a.Respectful) {x' y' : L} (h : a.Below x y) (hx : x == x')
    (hy : y == y') : a.Below x' y' :=
  BEq.trans (ha.meet_congr (BEq.symm hx) (BEq.symm hy)) (BEq.trans h hx)

theorem Below.trans (ha : a.Lawful) (hxy : a.Below x y) (hyz : a.Below y z) : a.Below x z := by
  have hexpand : a.meet x z == a.meet (a.meet x y) z := ha.meet_congr (BEq.symm hxy) BEq.rfl
  have hcollapse : a.meet x (a.meet y z) == a.meet x y := ha.meet_congr BEq.rfl hyz
  exact BEq.trans hexpand (BEq.trans (ha.meet_assoc x y z) (BEq.trans hcollapse hxy))

theorem Below.antisymm (ha : a.Lawful) (hxy : a.Below x y) (hyx : a.Below y x) : x == y :=
  BEq.trans (BEq.symm hxy) (BEq.trans (ha.meet_comm x y) hyx)

theorem below_initial (ha : a.Lawful) (x : L) : a.Below x a.initial :=
  BEq.trans (ha.meet_comm x a.initial) (ha.initial_meet x)

theorem below_meet (ha : a.Lawful) (hx : a.Below z x) (hy : a.Below z y) :
    a.Below z (a.meet x y) := by
  have hleft : a.meet (a.meet z x) y == a.meet z y := ha.meet_congr hx BEq.rfl
  exact BEq.trans (BEq.symm (ha.meet_assoc z x y)) (BEq.trans hleft hy)

theorem meet_below_right (ha : a.Lawful) (x y : L) : a.Below (a.meet x y) y :=
  BEq.trans (ha.meet_assoc x y y) (ha.meet_congr BEq.rfl (ha.meet_self y))

theorem meet_below_left (ha : a.Lawful) (x y : L) : a.Below (a.meet x y) x :=
  Below.congr ha.toRespectful (meet_below_right ha y x) (ha.meet_comm y x) BEq.rfl

/-- Combining facts from `start` on gives a fact below the start and below each of them. -/
theorem foldl_meet_below (ha : a.Lawful) (fact : Nat → L) (sources : List Nat) (start : L) :
    a.Below (sources.foldl (fun x s ↦ a.meet x (fact s)) start) start ∧
      ∀ s ∈ sources, a.Below (sources.foldl (fun x s ↦ a.meet x (fact s)) start) (fact s) := by
  induction sources generalizing start with
  | nil => exact ⟨ha.meet_self start, by simp⟩
  | cons s rest ih =>
    obtain ⟨hstart, hrest⟩ := ih (a.meet start (fact s))
    refine ⟨hstart.trans ha (meet_below_left ha start (fact s)), fun t ht ↦ ?_⟩
    rcases List.mem_cons.mp ht with rfl | ht
    · exact hstart.trans ha (meet_below_right ha start (fact t))
    · exact hrest t ht

variable {g : FlowGraph} {fact : Point → L} {p q : Point}

/-- Along a step that passes no instruction, a solution stays or gets smaller. -/
theorem Solves.below_of_flow (ha : a.Lawful) (hsolves : a.Solves g fact)
    (hflow : Flow a.direction g p none q) : a.Below (fact q) (fact p) := by
  have hequations := solves_iff.mp hsolves
  have hstay : ∀ {x y : L}, x == y → a.Below x y := fun hxy ↦
    Below.congr ha.toRespectful (ha.meet_self _) BEq.rfl hxy
  cases hflow with
  | first hblock hfirst => exact hstay (hequations.first hblock hfirst)
  | next hblock hnext => exact hstay (hequations.next hblock hnext)
  | last hblock hlast => exact hstay (hequations.last hblock hlast)
  | pass hblock hempty => exact hstay (hequations.empty hblock hempty)
  | edge hblock hsource =>
    have hbelow := (foldl_meet_below ha (fact ∘ a.direction.leave) _ a.initial).2 _ hsource
    exact hbelow.congr ha.toRespectful (BEq.symm (hequations.entering hblock)) BEq.rfl

/-- A property that a meet takes over from either side spreads along the steps that pass no
instruction, whatever laws the analysis breaks. -/
theorem Solves.spread {P : L → Prop} (hcongr : ∀ {x y : L}, x == y → P x → P y)
    (hmeet : ∀ {x y : L}, P x ∨ P y → P (a.meet x y)) (hsolves : a.Solves g fact)
    (hflow : Flow a.direction g p none q) (h : P (fact p)) : P (fact q) := by
  have hequations := solves_iff.mp hsolves
  cases hflow with
  | first hblock hfirst => exact hcongr (BEq.symm (hequations.first hblock hfirst)) h
  | next hblock hnext => exact hcongr (BEq.symm (hequations.next hblock hnext)) h
  | last hblock hlast => exact hcongr (BEq.symm (hequations.last hblock hlast)) h
  | pass hblock hempty => exact hcongr (BEq.symm (hequations.empty hblock hempty)) h
  | edge hblock hsource =>
    refine hcongr (BEq.symm (hequations.entering hblock)) ?_
    obtain ⟨before, after, hsources⟩ := List.append_of_mem hsource
    rw [hsources, List.foldl_append, List.foldl_cons]
    exact List.foldlRecOn after _ (hmeet (Or.inr h)) fun x hx s _ ↦ hmeet (Or.inl hx)

omit [EquivBEq L] in
/-- Along a step that passes an instruction, a solution makes its transfer. -/
theorem Solves.beq_transfer_of_flow {i : Instr} (hsolves : a.Solves g fact)
    (hflow : Flow a.direction g p (some i) q) : fact q == a.transfer i (fact p) := by
  cases hflow with
  | execute hi =>
    obtain ⟨b, block, hblock, hmem⟩ := FlowGraph.exists_block?_of_mem_instrs hi
    exact (solves_iff.mp hsolves).passing hblock (Direction.mem_path.mpr hmem)

end Analysis

end FlowFacts

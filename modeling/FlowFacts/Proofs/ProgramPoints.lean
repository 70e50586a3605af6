import FlowFacts.Analysis.Results
import FlowFacts.Proofs.BuiltGraph

/-!
Program points and the control flow between them. A point is an end of a block or a side of an
instruction. A step of control stays inside a block or follows an edge, and executes at most one
instruction; a path records the instructions that it executes. Facts travel along the steps in a
forward analysis and against them in a backward one.
-/

set_option autoImplicit false
set_option relaxedAutoImplicit false

namespace FlowFacts

/-- Blocks and instructions are given by their numbers. -/
inductive Point where
  | blockStart (b : Nat)
  | blockEnd (b : Nat)
  | before (i : Nat)
  | after (i : Nat)
  deriving DecidableEq

/-- A step of control, with the instruction that it executes. -/
inductive Step (g : FlowGraph) : Point → Option Instr → Point → Prop
  | first {b : Nat} {block : Block} {i : Instr} (hblock : g.block? b = some block)
      (hfirst : block.instrs.head? = some i) : Step g (.blockStart b) none (.before i.id)
  | execute {i : Instr} (hi : i ∈ g.instrs) : Step g (.before i.id) (some i) (.after i.id)
  | next {b : Nat} {block : Block} {i j : Instr} (hblock : g.block? b = some block)
      (hnext : [i, j] <:+: block.instrs) : Step g (.after i.id) none (.before j.id)
  | last {b : Nat} {block : Block} {i : Instr} (hblock : g.block? b = some block)
      (hlast : block.instrs.getLast? = some i) : Step g (.after i.id) none (.blockEnd b)
  | pass {b : Nat} {block : Block} (hblock : g.block? b = some block)
      (hempty : block.instrs = []) : Step g (.blockStart b) none (.blockEnd b)
  | edge {b s : Nat} (hs : s ∈ g.succs b) : Step g (.blockEnd b) none (.blockStart s)

/-- A path of control, with the instructions that it executes in their order. -/
inductive Path (g : FlowGraph) : Point → List Instr → Point → Prop
  | refl (p : Point) : Path g p [] p
  | cons {p q r : Point} {executed : Option Instr} {rest : List Instr} (hstep : Step g p executed q)
      (hpath : Path g q rest r) : Path g p (executed.toList ++ rest) r

theorem Path.concat {g : FlowGraph} {p q r : Point} {executed : List Instr} {last : Option Instr}
    (hpath : Path g p executed q) (hstep : Step g q last r) :
    Path g p (executed ++ last.toList) r := by
  induction hpath with
  | refl p => simpa using Path.cons hstep (.refl r)
  | cons hfirst _ ih =>
    rw [List.append_assoc]
    exact .cons hfirst (ih hstep)

namespace Direction

/-- The blocks that facts come from. -/
def sources : Direction → Block → List Nat
  | forward, block => block.preds
  | backward, block => block.succs

/-- The instructions of a block in the order in which facts pass them. -/
def path : Direction → Block → List Instr
  | forward, block => block.instrs
  | backward, block => block.instrs.reverse

/-- Where facts enter a block. -/
def enter : Direction → Nat → Point
  | forward => .blockStart
  | backward => .blockEnd

/-- Where facts leave a block. -/
def leave : Direction → Nat → Point
  | forward => .blockEnd
  | backward => .blockStart

/-- Where facts enter an instruction. -/
def enterInstr : Direction → Nat → Point
  | forward => .before
  | backward => .after

/-- Where facts leave an instruction. -/
def leaveInstr : Direction → Nat → Point
  | forward => .after
  | backward => .before

variable {g : FlowGraph} {b : Nat} {block : Block}

theorem mem_path {direction : Direction} {i : Instr} :
    i ∈ direction.path block ↔ i ∈ block.instrs := by
  cases direction <;> simp [path]

/-- The instructions that facts pass in a block have different numbers. -/
theorem nodup_path (hg : g.WellFormed) (direction : Direction) (hblock : g.block? b = some block) :
    ((direction.path block).map Instr.id).Nodup := by
  cases direction with
  | forward => exact hg.nodup_ids hblock
  | backward =>
    rw [path, List.map_reverse, List.nodup_reverse]
    exact hg.nodup_ids hblock

theorem sources_of_block? (direction : Direction) (hblock : g.block? b = some block) :
    direction.sources block =
      match direction with
      | forward => g.preds b
      | backward => g.succs b := by
  cases direction with
  | forward => exact (FlowGraph.preds_of_block? hblock).symm
  | backward => exact (FlowGraph.succs_of_block? hblock).symm

theorem source_lt (hg : g.WellFormed) (direction : Direction) {source : Nat}
    (hblock : g.block? b = some block) (hsource : source ∈ direction.sources block) :
    source < g.blockCount := by
  rw [sources_of_block? direction hblock] at hsource
  cases direction with
  | forward => exact hg.lt_of_mem_preds hsource
  | backward => exact hg.lt_of_mem_succs hsource

theorem target_lt (hg : g.WellFormed) (direction : Direction) {target : Nat}
    (hblock : g.block? b = some block) (htarget : target ∈ direction.targets block) :
    target < g.blockCount := by
  cases direction with
  | forward =>
    refine hg.lt_of_mem_succs (b := b) ?_
    rwa [FlowGraph.succs_of_block? hblock]
  | backward =>
    refine hg.lt_of_mem_preds (s := b) ?_
    rwa [FlowGraph.preds_of_block? hblock]

/-- A block is among the targets of each of its sources. -/
theorem mem_targets_of_mem_sources (hg : g.WellFormed) (direction : Direction) {c : Nat}
    {other : Block} (hb : g.block? b = some block) (hc : g.block? c = some other)
    (hsource : b ∈ direction.sources other) : c ∈ direction.targets block := by
  rw [sources_of_block? direction hc] at hsource
  cases direction with
  | forward =>
    have hsucc := hg.mem_preds_iff.mp hsource
    rwa [FlowGraph.succs_of_block? hb] at hsucc
  | backward =>
    have hpred := hg.mem_preds_iff.mpr hsource
    rwa [FlowGraph.preds_of_block? hb] at hpred

end Direction

/-- A step of facts, with the instruction that they pass. -/
inductive Flow (direction : Direction) (g : FlowGraph) : Point → Option Instr → Point → Prop
  | first {b : Nat} {block : Block} {i : Instr} (hblock : g.block? b = some block)
      (hfirst : (direction.path block).head? = some i) :
      Flow direction g (direction.enter b) none (direction.enterInstr i.id)
  | execute {i : Instr} (hi : i ∈ g.instrs) :
      Flow direction g (direction.enterInstr i.id) (some i) (direction.leaveInstr i.id)
  | next {b : Nat} {block : Block} {i j : Instr} (hblock : g.block? b = some block)
      (hnext : [i, j] <:+: direction.path block) :
      Flow direction g (direction.leaveInstr i.id) none (direction.enterInstr j.id)
  | last {b : Nat} {block : Block} {i : Instr} (hblock : g.block? b = some block)
      (hlast : (direction.path block).getLast? = some i) :
      Flow direction g (direction.leaveInstr i.id) none (direction.leave b)
  | pass {b : Nat} {block : Block} (hblock : g.block? b = some block)
      (hempty : direction.path block = []) :
      Flow direction g (direction.enter b) none (direction.leave b)
  | edge {b source : Nat} {block : Block} (hblock : g.block? b = some block)
      (hsource : source ∈ direction.sources block) :
      Flow direction g (direction.leave source) none (direction.enter b)

/-- Going forward, facts take the steps of control. -/
theorem flow_forward_iff {g : FlowGraph} (hg : g.WellFormed) {p q : Point} {passed : Option Instr} :
    Flow .forward g p passed q ↔ Step g p passed q := by
  constructor
  · intro h
    cases h with
    | first hblock hfirst => exact .first hblock hfirst
    | execute hi => exact .execute hi
    | next hblock hnext => exact .next hblock hnext
    | last hblock hlast => exact .last hblock hlast
    | pass hblock hempty => exact .pass hblock hempty
    | edge hblock hsource =>
      refine .edge (hg.mem_preds_iff.mp ?_)
      rwa [FlowGraph.preds_of_block? hblock]
  · intro h
    cases h with
    | first hblock hfirst => exact .first hblock hfirst
    | execute hi => exact .execute hi
    | next hblock hnext => exact .next hblock hnext
    | last hblock hlast => exact .last hblock hlast
    | pass hblock hempty => exact .pass hblock hempty
    | edge hs =>
      obtain ⟨block, hblock⟩ := FlowGraph.exists_block?_of_lt (hg.lt_of_mem_succs hs)
      have hpred := hg.mem_preds_iff.mpr hs
      rw [FlowGraph.preds_of_block? hblock] at hpred
      exact .edge hblock hpred

theorem pair_infix_reverse_iff {i j : Instr} {instrs : List Instr} :
    [i, j] <:+: instrs.reverse ↔ [j, i] <:+: instrs := by
  rw [← List.reverse_infix, List.reverse_reverse]
  rfl

/-- Going backward, facts take the steps of control against their direction. -/
theorem flow_backward_iff {g : FlowGraph} {p q : Point} {passed : Option Instr} :
    Flow .backward g p passed q ↔ Step g q passed p := by
  constructor
  · intro h
    cases h with
    | first hblock hfirst => exact .last hblock (List.head?_reverse ▸ hfirst)
    | execute hi => exact .execute hi
    | next hblock hnext => exact .next hblock (pair_infix_reverse_iff.mp hnext)
    | last hblock hlast => exact .first hblock (List.getLast?_reverse ▸ hlast)
    | pass hblock hempty => exact .pass hblock (List.reverse_eq_nil_iff.mp hempty)
    | edge hblock hsource =>
      refine .edge ?_
      rwa [FlowGraph.succs_of_block? hblock]
  · intro h
    cases h with
    | first hblock hfirst => exact .last hblock (List.getLast?_reverse.trans hfirst)
    | execute hi => exact .execute hi
    | next hblock hnext => exact .next hblock (pair_infix_reverse_iff.mpr hnext)
    | last hblock hlast => exact .first hblock (List.head?_reverse.trans hlast)
    | pass hblock hempty => exact .pass hblock (List.reverse_eq_nil_iff.mpr hempty)
    | edge hs =>
      obtain ⟨block, hblock, hmem⟩ := FlowGraph.exists_block?_of_mem_succs hs
      exact .edge hblock hmem

variable {L : Type}

/-- The fact at a point, or the initial one where the facts do not reach. -/
def Facts.at (facts : Facts L) (initial : L) : Point → L
  | .blockStart b => facts.blockIn.getD b initial
  | .blockEnd b => facts.blockOut.getD b initial
  | .before i => facts.instrIn.getD i initial
  | .after i => facts.instrOut.getD i initial

def Results.at (r : Results L) : Point → L
  | .blockStart b => r.blockIn b
  | .blockEnd b => r.blockOut b
  | .before i => r.instrIn i
  | .after i => r.instrOut i

theorem Results.at_eq (r : Results L) : r.at = r.facts.at r.initial := by
  funext q
  cases q <;> rfl

namespace Facts

/-- The facts that enter the blocks: those at their starts going forward, at their ends going
backward. -/
def blockEnter (facts : Facts L) : Direction → Array L
  | .forward => facts.blockIn
  | .backward => facts.blockOut

/-- The facts that leave the blocks. -/
def blockLeave (facts : Facts L) : Direction → Array L
  | .forward => facts.blockOut
  | .backward => facts.blockIn

/-- The facts that enter the instructions. -/
def instrEnter (facts : Facts L) : Direction → Array L
  | .forward => facts.instrIn
  | .backward => facts.instrOut

/-- The facts that leave the instructions. -/
def instrLeave (facts : Facts L) : Direction → Array L
  | .forward => facts.instrOut
  | .backward => facts.instrIn

variable (facts : Facts L) (direction : Direction) (initial : L)

theorem at_enter (b : Nat) :
    facts.at initial (direction.enter b) = (facts.blockEnter direction).getD b initial := by
  cases direction <;> rfl

theorem at_leave (b : Nat) :
    facts.at initial (direction.leave b) = (facts.blockLeave direction).getD b initial := by
  cases direction <;> rfl

theorem at_enterInstr (i : Nat) :
    facts.at initial (direction.enterInstr i) = (facts.instrEnter direction).getD i initial := by
  cases direction <;> rfl

theorem at_leaveInstr (i : Nat) :
    facts.at initial (direction.leaveInstr i) = (facts.instrLeave direction).getD i initial := by
  cases direction <;> rfl

end Facts

end FlowFacts

import FlowFacts.Proofs.ProgramPoints

/-!
One visit for both directions. Facts enter a block at one of its sides and leave it at the other,
and so they do with its instructions; the direction says which side is which. A visit gathers what
leaves the sources of a block, takes it along the path through the block and records it where it
enters and where it leaves. Both ways of visiting a block, forward and backward, are this visit.
-/

set_option autoImplicit false
set_option relaxedAutoImplicit false

namespace FlowFacts

variable {L : Type}

/-! ### Records along a direction -/

namespace Facts

/-- Replaces the facts that enter and leave a block. -/
def recordBlock (facts : Facts L) (direction : Direction) (b : Nat) (entering leaving : L) :
    Facts L :=
  match direction with
  | .forward =>
    { facts with
      blockIn := facts.blockIn.setIfInBounds b entering
      blockOut := facts.blockOut.setIfInBounds b leaving }
  | .backward =>
    { facts with
      blockIn := facts.blockIn.setIfInBounds b leaving
      blockOut := facts.blockOut.setIfInBounds b entering }

/-- Replaces the facts that enter and leave an instruction. -/
def recordInstr (facts : Facts L) (direction : Direction) (i : Nat) (entering leaving : L) :
    Facts L :=
  match direction with
  | .forward =>
    { facts with
      instrIn := facts.instrIn.setIfInBounds i entering
      instrOut := facts.instrOut.setIfInBounds i leaving }
  | .backward =>
    { facts with
      instrIn := facts.instrIn.setIfInBounds i leaving
      instrOut := facts.instrOut.setIfInBounds i entering }

variable (facts : Facts L) (direction : Direction) (n : Nat) (x y : L)

@[simp] theorem blockEnter_recordBlock :
    (facts.recordBlock direction n x y).blockEnter direction =
      (facts.blockEnter direction).setIfInBounds n x := by
  cases direction <;> rfl

@[simp] theorem blockLeave_recordBlock :
    (facts.recordBlock direction n x y).blockLeave direction =
      (facts.blockLeave direction).setIfInBounds n y := by
  cases direction <;> rfl

@[simp] theorem instrEnter_recordBlock :
    (facts.recordBlock direction n x y).instrEnter direction = facts.instrEnter direction := by
  cases direction <;> rfl

@[simp] theorem instrLeave_recordBlock :
    (facts.recordBlock direction n x y).instrLeave direction = facts.instrLeave direction := by
  cases direction <;> rfl

@[simp] theorem blockEnter_recordInstr :
    (facts.recordInstr direction n x y).blockEnter direction = facts.blockEnter direction := by
  cases direction <;> rfl

@[simp] theorem blockLeave_recordInstr :
    (facts.recordInstr direction n x y).blockLeave direction = facts.blockLeave direction := by
  cases direction <;> rfl

@[simp] theorem instrEnter_recordInstr :
    (facts.recordInstr direction n x y).instrEnter direction =
      (facts.instrEnter direction).setIfInBounds n x := by
  cases direction <;> rfl

@[simp] theorem instrLeave_recordInstr :
    (facts.recordInstr direction n x y).instrLeave direction =
      (facts.instrLeave direction).setIfInBounds n y := by
  cases direction <;> rfl

end Facts

/-! ### The visit along a direction -/

namespace Analysis

variable {a : Analysis L}

/-- What enters a block: the facts that leave its sources, combined from the initial fact on. -/
def gather (a : Analysis L) (facts : Facts L) (block : Block) : L :=
  (a.direction.sources block).foldl
    (fun fact source ↦
      match (facts.blockLeave a.direction)[source]? with
      | some left => a.meet fact left
      | none => fact)
    a.initial

/-- Takes a fact through instructions, records it around each and returns it with the records. -/
def thread (a : Analysis L) : List Instr → L → Facts L → L × Facts L
  | [], fact, facts => (fact, facts)
  | i :: rest, fact, facts =>
    thread a rest (a.transfer i fact)
      (facts.recordInstr a.direction i.id fact (a.transfer i fact))

/-- What leaves a block when it is visited. -/
def passThrough (a : Analysis L) (block : Block) (facts : Facts L) : L :=
  (a.thread (a.direction.path block) (a.gather facts block) facts).1

/-! ### Forward and backward visits -/

theorem meetPreds_eq_gather (ha : a.direction = .forward) (facts : Facts L) (block : Block) :
    a.meetPreds facts block = a.gather facts block := by
  rw [gather, ha]
  rfl

theorem meetSuccs_eq_gather (ha : a.direction = .backward) (facts : Facts L) (block : Block) :
    a.meetSuccs facts block = a.gather facts block := by
  rw [gather, ha]
  rfl

theorem threadDown_eq_thread (ha : a.direction = .forward) (path : List Instr) (x : L)
    (facts : Facts L) : a.threadDown path x facts = a.thread path x facts := by
  induction path generalizing x facts with
  | nil => rfl
  | cons i rest ih =>
    rw [threadDown, thread, ih, ha]
    rfl

theorem threadUp_eq_thread (ha : a.direction = .backward) (path : List Instr) (x : L)
    (facts : Facts L) : a.threadUp path x facts = a.thread path x facts := by
  induction path generalizing x facts with
  | nil => rfl
  | cons i rest ih =>
    rw [threadUp, thread, ih, ha]
    rfl

/-- Instructions do not look at the facts of blocks, and those stay as they are. -/
theorem thread_withBlocks (path : List Instr) (x : L) (facts : Facts L) (starts ends : Array L) :
    a.thread path x { facts with blockIn := starts, blockOut := ends } =
      ((a.thread path x facts).1,
        { (a.thread path x facts).2 with blockIn := starts, blockOut := ends }) := by
  induction path generalizing x facts with
  | nil => rfl
  | cons i rest ih =>
    rw [thread, thread, ← ih]
    cases a.direction <;> rfl

theorem blockIn_thread (path : List Instr) (x : L) (facts : Facts L) :
    (a.thread path x facts).2.blockIn = facts.blockIn :=
  congrArg (·.2.blockIn) (thread_withBlocks path x facts facts.blockIn facts.blockOut)

theorem blockOut_thread (path : List Instr) (x : L) (facts : Facts L) :
    (a.thread path x facts).2.blockOut = facts.blockOut :=
  congrArg (·.2.blockOut) (thread_withBlocks path x facts facts.blockIn facts.blockOut)

theorem blockEnter_thread (path : List Instr) (x : L) (facts : Facts L) (direction : Direction) :
    (a.thread path x facts).2.blockEnter direction = facts.blockEnter direction := by
  cases direction with
  | forward => exact blockIn_thread path x facts
  | backward => exact blockOut_thread path x facts

theorem blockLeave_thread (path : List Instr) (x : L) (facts : Facts L) (direction : Direction) :
    (a.thread path x facts).2.blockLeave direction = facts.blockLeave direction := by
  cases direction with
  | forward => exact blockOut_thread path x facts
  | backward => exact blockIn_thread path x facts

variable [BEq L]

/-- The visit along a direction. -/
def visitAlong (a : Analysis L) (b : Nat) (block : Block) (facts : Facts L) : Facts L × Bool :=
  let entering := a.gather facts block
  let leaving := a.passThrough block facts
  ((a.thread (a.direction.path block) entering facts).2.recordBlock a.direction b entering leaving,
    !(some entering == (facts.blockEnter a.direction)[b]? &&
      some leaving == (facts.blockLeave a.direction)[b]?))

theorem visitForward_eq_visitAlong (ha : a.direction = .forward) (b : Nat) (block : Block)
    (facts : Facts L) : a.visitForward b block facts = a.visitAlong b block facts := by
  have hthread := thread_withBlocks (a := a) block.instrs (a.gather facts block) facts
    (facts.blockIn.setIfInBounds b (a.gather facts block)) facts.blockOut
  simp only [visitForward, meetPreds_eq_gather ha, threadDown_eq_thread ha, hthread, visitAlong,
    passThrough, ha, Facts.recordBlock, Facts.blockEnter, Facts.blockLeave, Direction.path,
    blockIn_thread, blockOut_thread, Bool.not_and, bne]

theorem visitBackward_eq_visitAlong (ha : a.direction = .backward) (b : Nat) (block : Block)
    (facts : Facts L) : a.visitBackward b block facts = a.visitAlong b block facts := by
  have hthread := thread_withBlocks (a := a) block.instrs.reverse (a.gather facts block) facts
    facts.blockIn (facts.blockOut.setIfInBounds b (a.gather facts block))
  simp only [visitBackward, meetSuccs_eq_gather ha, threadUp_eq_thread ha, hthread, visitAlong,
    passThrough, ha, Facts.recordBlock, Facts.blockEnter, Facts.blockLeave, Direction.path,
    blockIn_thread, blockOut_thread, Bool.not_and, bne]

theorem visit_eq_visitAlong (b : Nat) (block : Block) (facts : Facts L) :
    a.visit b block facts = a.visitAlong b block facts := by
  cases ha : a.direction with
  | forward => rw [visit, ha, visitForward_eq_visitAlong ha]
  | backward => rw [visit, ha, visitBackward_eq_visitAlong ha]

end Analysis

end FlowFacts

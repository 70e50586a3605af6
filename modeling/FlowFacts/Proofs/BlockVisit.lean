import Mathlib.Data.List.Basic
import FlowFacts.Proofs.DirectedVisit
import FlowFacts.Proofs.Equations

/-!
One visit of a block. It writes what enters and leaves the block and its instructions, and nothing
else. A block is consistent when its records are those of a visit with the facts that leave its
sources now. A visit makes its block consistent and keeps the others so, except where it changes
the facts that leave the block for one that takes them.
-/

set_option autoImplicit false
set_option relaxedAutoImplicit false

namespace FlowFacts

variable {L : Type}

/-- The facts cover exactly the blocks and instructions of a graph. -/
structure Facts.Fits (facts : Facts L) (g : FlowGraph) : Prop where
  size_blockIn : facts.blockIn.size = g.blockCount
  size_blockOut : facts.blockOut.size = g.blockCount
  size_instrIn : facts.instrIn.size = g.instrCount
  size_instrOut : facts.instrOut.size = g.instrCount

namespace Facts

/-- Facts fit when the sides that they enter and leave do. -/
theorem fits_iff {facts : Facts L} {g : FlowGraph} (direction : Direction) :
    facts.Fits g ↔ (facts.blockEnter direction).size = g.blockCount ∧
      (facts.blockLeave direction).size = g.blockCount ∧
      (facts.instrEnter direction).size = g.instrCount ∧
      (facts.instrLeave direction).size = g.instrCount := by
  constructor
  · intro h
    cases direction with
    | forward => exact ⟨h.size_blockIn, h.size_blockOut, h.size_instrIn, h.size_instrOut⟩
    | backward => exact ⟨h.size_blockOut, h.size_blockIn, h.size_instrOut, h.size_instrIn⟩
  · rintro ⟨henter, hleave, henterInstr, hleaveInstr⟩
    cases direction with
    | forward => exact ⟨henter, hleave, henterInstr, hleaveInstr⟩
    | backward => exact ⟨hleave, henter, hleaveInstr, henterInstr⟩

theorem Fits.size_blockEnter {facts : Facts L} {g : FlowGraph} (h : facts.Fits g)
    (direction : Direction) : (facts.blockEnter direction).size = g.blockCount :=
  ((fits_iff direction).mp h).1

theorem Fits.size_blockLeave {facts : Facts L} {g : FlowGraph} (h : facts.Fits g)
    (direction : Direction) : (facts.blockLeave direction).size = g.blockCount :=
  ((fits_iff direction).mp h).2.1

theorem Fits.size_instrEnter {facts : Facts L} {g : FlowGraph} (h : facts.Fits g)
    (direction : Direction) : (facts.instrEnter direction).size = g.instrCount :=
  ((fits_iff direction).mp h).2.2.1

theorem Fits.size_instrLeave {facts : Facts L} {g : FlowGraph} (h : facts.Fits g)
    (direction : Direction) : (facts.instrLeave direction).size = g.instrCount :=
  ((fits_iff direction).mp h).2.2.2

theorem Fits.recordInstr {facts : Facts L} {g : FlowGraph} (h : facts.Fits g)
    (direction : Direction) (i : Nat) (x y : L) : (facts.recordInstr direction i x y).Fits g := by
  rw [fits_iff direction] at h ⊢
  simpa using h

theorem Fits.recordBlock {facts : Facts L} {g : FlowGraph} (h : facts.Fits g)
    (direction : Direction) (b : Nat) (x y : L) : (facts.recordBlock direction b x y).Fits g := by
  rw [fits_iff direction] at h ⊢
  simpa using h

theorem size_resize (items : Array L) (n : Nat) (initial : L) :
    (resize items n initial).size = n := by
  simp only [resize, Array.rightpad, Array.take_eq_extract, Array.size_append, Array.size_extract,
    Array.size_replicate]
  omega

theorem fits_fit (facts : Facts L) (g : FlowGraph) (initial : L) : (facts.fit g initial).Fits g :=
  ⟨size_resize .., size_resize .., size_resize .., size_resize ..⟩

theorem fits_new (g : FlowGraph) (initial : L) : (new g initial).Fits g :=
  ⟨Array.size_replicate, Array.size_replicate, Array.size_replicate, Array.size_replicate⟩

theorem resize_of_size {items : Array L} {n : Nat} (h : items.size = n) (initial : L) :
    resize items n initial = items := by
  subst h
  simp [resize, Array.rightpad]

theorem fit_of_fits {facts : Facts L} {g : FlowGraph} (h : facts.Fits g) (initial : L) :
    facts.fit g initial = facts := by
  rw [fit, resize_of_size h.size_blockIn, resize_of_size h.size_blockOut,
    resize_of_size h.size_instrIn, resize_of_size h.size_instrOut]

end Facts

namespace Analysis

variable {a : Analysis L} {g : FlowGraph}

/-! ### Facts threaded through instructions -/

/-- The records along instructions are those of taking `x` through them, and `y` comes out. -/
def Threaded (a : Analysis L) (facts : Facts L) : List Instr → L → L → Prop
  | [], x, y => x = y
  | i :: rest, x, y =>
    (facts.instrEnter a.direction)[i.id]? = some x ∧
      (facts.instrLeave a.direction)[i.id]? = some (a.transfer i x) ∧
      Threaded a facts rest (a.transfer i x) y

theorem Threaded.congr {facts facts' : Facts L} {path : List Instr} {x y : L}
    (hsame : ∀ i ∈ path,
      (facts'.instrEnter a.direction)[i.id]? = (facts.instrEnter a.direction)[i.id]? ∧
      (facts'.instrLeave a.direction)[i.id]? = (facts.instrLeave a.direction)[i.id]?)
    (h : a.Threaded facts path x y) : a.Threaded facts' path x y := by
  induction path generalizing x with
  | nil => exact h
  | cons i rest ih =>
    obtain ⟨henter, hleave, hrest⟩ := h
    obtain ⟨hsameEnter, hsameLeave⟩ := hsame i List.mem_cons_self
    exact ⟨hsameEnter.trans henter, hsameLeave.trans hleave,
      ih (fun j hj ↦ hsame j (List.mem_cons_of_mem i hj)) hrest⟩

theorem Threaded.head {facts : Facts L} {path : List Instr} {x y : L} {i : Instr}
    (h : a.Threaded facts path x y) (hi : path.head? = some i) :
    (facts.instrEnter a.direction)[i.id]? = some x := by
  cases path with
  | nil => cases hi
  | cons j rest =>
    cases hi
    exact h.1

theorem Threaded.passed {facts : Facts L} {path : List Instr} {x y : L} {i : Instr}
    (h : a.Threaded facts path x y) (hi : i ∈ path) :
    ∃ z, (facts.instrEnter a.direction)[i.id]? = some z ∧
      (facts.instrLeave a.direction)[i.id]? = some (a.transfer i z) := by
  induction path generalizing x with
  | nil => cases hi
  | cons j rest ih =>
    rcases List.mem_cons.mp hi with rfl | hi
    · exact ⟨x, h.1, h.2.1⟩
    · exact ih h.2.2 hi

theorem Threaded.pair {facts : Facts L} {path : List Instr} {x y : L} {i j : Instr}
    (h : a.Threaded facts path x y) (hij : [i, j] <:+: path) :
    ∃ z, (facts.instrLeave a.direction)[i.id]? = some z ∧
      (facts.instrEnter a.direction)[j.id]? = some z := by
  induction path generalizing x with
  | nil => cases List.infix_nil.mp hij
  | cons k rest ih =>
    rcases List.infix_cons_iff.mp hij with ⟨tail, htail⟩ | hrest
    · cases htail
      exact ⟨_, h.2.1, h.2.2.1⟩
    · exact ih h.2.2 hrest

theorem Threaded.last {facts : Facts L} {path : List Instr} {x y : L} {i : Instr}
    (h : a.Threaded facts path x y) (hi : path.getLast? = some i) :
    (facts.instrLeave a.direction)[i.id]? = some y := by
  induction path generalizing x with
  | nil => cases hi
  | cons j rest ih =>
    cases rest with
    | nil =>
      cases hi
      obtain ⟨-, hleave, rfl⟩ := h
      exact hleave
    | cons k tail =>
      rw [List.getLast?_cons_cons] at hi
      exact ih h.2.2 hi

theorem fits_thread {facts : Facts L} (h : facts.Fits g) (path : List Instr) (x : L) :
    (a.thread path x facts).2.Fits g := by
  induction path generalizing x facts with
  | nil => exact h
  | cons i rest ih => exact ih (h.recordInstr a.direction i.id x (a.transfer i x)) _

/-- Records of instructions off the path stay. -/
theorem thread_of_notMem {path : List Instr} {n : Nat} (hn : n ∉ path.map Instr.id) (x : L)
    (facts : Facts L) :
    ((a.thread path x facts).2.instrEnter a.direction)[n]? =
        (facts.instrEnter a.direction)[n]? ∧
      ((a.thread path x facts).2.instrLeave a.direction)[n]? =
        (facts.instrLeave a.direction)[n]? := by
  induction path generalizing x facts with
  | nil => exact ⟨rfl, rfl⟩
  | cons i rest ih =>
    obtain ⟨hne, hrest⟩ : n ≠ i.id ∧ n ∉ rest.map Instr.id := by simpa using hn
    rw [thread, (ih hrest _ _).1, (ih hrest _ _).2, Facts.instrEnter_recordInstr,
      Facts.instrLeave_recordInstr]
    exact ⟨Array.getElem?_setIfInBounds_ne hne.symm, Array.getElem?_setIfInBounds_ne hne.symm⟩

theorem threaded_thread {path : List Instr} (hnodup : (path.map Instr.id).Nodup) (x : L)
    (facts : Facts L) (henter : ∀ i ∈ path, i.id < (facts.instrEnter a.direction).size)
    (hleave : ∀ i ∈ path, i.id < (facts.instrLeave a.direction).size) :
    a.Threaded (a.thread path x facts).2 path x (a.thread path x facts).1 := by
  induction path generalizing x facts with
  | nil => rfl
  | cons i rest ih =>
    rw [List.map_cons, List.nodup_cons] at hnodup
    rw [thread]
    refine ⟨?_, ?_, ih hnodup.2 _ _ (fun j hj ↦ ?_) (fun j hj ↦ ?_)⟩
    · rw [(thread_of_notMem hnodup.1 _ _).1, Facts.instrEnter_recordInstr]
      exact Array.getElem?_setIfInBounds_self_of_lt (henter i List.mem_cons_self)
    · rw [(thread_of_notMem hnodup.1 _ _).2, Facts.instrLeave_recordInstr]
      exact Array.getElem?_setIfInBounds_self_of_lt (hleave i List.mem_cons_self)
    · rw [Facts.instrEnter_recordInstr, Array.size_setIfInBounds]
      exact henter j (List.mem_cons_of_mem i hj)
    · rw [Facts.instrLeave_recordInstr, Array.size_setIfInBounds]
      exact hleave j (List.mem_cons_of_mem i hj)

/-! ### One visit -/

section Visit

variable [BEq L]

theorem visit_blockEnter (b : Nat) (block : Block) (facts : Facts L) :
    (a.visit b block facts).1.blockEnter a.direction =
      (facts.blockEnter a.direction).setIfInBounds b (a.gather facts block) := by
  rw [visit_eq_visitAlong, visitAlong, Facts.blockEnter_recordBlock, blockEnter_thread]

theorem visit_blockLeave (b : Nat) (block : Block) (facts : Facts L) :
    (a.visit b block facts).1.blockLeave a.direction =
      (facts.blockLeave a.direction).setIfInBounds b (a.passThrough block facts) := by
  rw [visit_eq_visitAlong, visitAlong, Facts.blockLeave_recordBlock, blockLeave_thread]

theorem visit_instrEnter (b : Nat) (block : Block) (facts : Facts L) :
    (a.visit b block facts).1.instrEnter a.direction =
      (a.thread (a.direction.path block) (a.gather facts block) facts).2.instrEnter
        a.direction := by
  rw [visit_eq_visitAlong, visitAlong, Facts.instrEnter_recordBlock]

theorem visit_instrLeave (b : Nat) (block : Block) (facts : Facts L) :
    (a.visit b block facts).1.instrLeave a.direction =
      (a.thread (a.direction.path block) (a.gather facts block) facts).2.instrLeave
        a.direction := by
  rw [visit_eq_visitAlong, visitAlong, Facts.instrLeave_recordBlock]

theorem visit_changed (b : Nat) (block : Block) (facts : Facts L) :
    (a.visit b block facts).2 =
      !(some (a.gather facts block) == (facts.blockEnter a.direction)[b]? &&
        some (a.passThrough block facts) == (facts.blockLeave a.direction)[b]?) := by
  rw [visit_eq_visitAlong, visitAlong]

theorem fits_visit {facts : Facts L} (h : facts.Fits g) (b : Nat) (block : Block) :
    (a.visit b block facts).1.Fits g := by
  rw [visit_eq_visitAlong]
  exact (fits_thread h _ _).recordBlock a.direction b _ _

/-- Records of instructions of other blocks stay. -/
theorem visit_instr_of_ne (hg : g.WellFormed) {b c : Nat} {block other : Block}
    (hb : g.block? b = some block) (hc : g.block? c = some other) (hne : c ≠ b) (facts : Facts L)
    {i : Instr} (hi : i ∈ a.direction.path other) :
    ((a.visit b block facts).1.instrEnter a.direction)[i.id]? =
        (facts.instrEnter a.direction)[i.id]? ∧
      ((a.visit b block facts).1.instrLeave a.direction)[i.id]? =
        (facts.instrLeave a.direction)[i.id]? := by
  rw [visit_instrEnter, visit_instrLeave]
  refine thread_of_notMem (fun hmem ↦ ?_) _ _
  obtain ⟨j, hj, hid⟩ := List.mem_map.mp hmem
  exact hg.id_ne_of_ne hc hb hne (Direction.mem_path.mp hi) (Direction.mem_path.mp hj) hid.symm

theorem threaded_visit (hg : g.WellFormed) {b : Nat} {block : Block} (hb : g.block? b = some block)
    {facts : Facts L} (hfits : facts.Fits g) :
    a.Threaded (a.visit b block facts).1 (a.direction.path block) (a.gather facts block)
      (a.passThrough block facts) := by
  have hlt : ∀ i ∈ a.direction.path block, i.id < g.instrCount := fun i hi ↦
    hg.id_lt (FlowGraph.mem_instrs_of_block? hb (Direction.mem_path.mp hi))
  have hthread : a.Threaded _ (a.direction.path block) (a.gather facts block) _ :=
    threaded_thread (a.direction.nodup_path hg hb) (a.gather facts block) facts
      (hfits.size_instrEnter a.direction ▸ hlt) (hfits.size_instrLeave a.direction ▸ hlt)
  refine Threaded.congr (fun i _ ↦ ?_) hthread
  rw [visit_instrEnter, visit_instrLeave]
  exact ⟨rfl, rfl⟩

/-- The records of a block are those of taking `x` through it. -/
def Recorded (a : Analysis L) (facts : Facts L) (b : Nat) (block : Block) (x : L) : Prop :=
  ∃ y, (facts.blockEnter a.direction)[b]? = some x ∧ a.Threaded facts (a.direction.path block) x y ∧
    (facts.blockLeave a.direction)[b]? = some y

theorem recorded_visit (hg : g.WellFormed) {b : Nat} {block : Block} (hb : g.block? b = some block)
    {facts : Facts L} (hfits : facts.Fits g) :
    a.Recorded (a.visit b block facts).1 b block (a.gather facts block) := by
  have hlt := FlowGraph.lt_blockCount_of_block? hb
  refine ⟨a.passThrough block facts, ?_, threaded_visit hg hb hfits, ?_⟩
  · rw [visit_blockEnter]
    exact Array.getElem?_setIfInBounds_self_of_lt (hfits.size_blockEnter a.direction ▸ hlt)
  · rw [visit_blockLeave]
    exact Array.getElem?_setIfInBounds_self_of_lt (hfits.size_blockLeave a.direction ▸ hlt)

variable [EquivBEq L]

theorem gather_congr (ha : a.Respectful) {facts facts' : Facts L} {block : Block}
    (h : ∀ s ∈ a.direction.sources block,
      (facts'.blockLeave a.direction)[s]? == (facts.blockLeave a.direction)[s]?) :
    a.gather facts' block == a.gather facts block := by
  refine List.foldl_rel (r := fun x x' ↦ x == x') BEq.rfl fun s hs x x' hx ↦ ?_
  have hleave := h s hs
  generalize (facts'.blockLeave a.direction)[s]? = left' at hleave ⊢
  generalize (facts.blockLeave a.direction)[s]? = left at hleave ⊢
  cases left' with
  | none =>
    cases left with
    | none => exact hx
    | some y => cases hleave
  | some y' =>
    cases left with
    | none => cases hleave
    | some y => exact ha.meet_congr hx hleave

/-- A visit leaves the facts that leave a block as they are, up to equality, unless it reports a
change of that block. -/
theorem visit_blockLeave_beq {b s : Nat} {block : Block} {facts : Facts L}
    (hsame : (a.visit b block facts).2 = false ∨ s ≠ b) :
    ((a.visit b block facts).1.blockLeave a.direction)[s]? ==
      (facts.blockLeave a.direction)[s]? := by
  rw [visit_blockLeave, Array.getElem?_setIfInBounds]
  split_ifs with hs hlt
  · subst hs
    rcases hsame with hsame | hne
    · rw [visit_changed, Bool.not_eq_false', Bool.and_eq_true] at hsame
      exact hsame.2
    · exact absurd rfl hne
  · rw [← hs, Array.getElem?_eq_none (Nat.not_lt.mp hlt)]
    exact BEq.rfl
  · exact BEq.rfl

theorem gather_visit (ha : a.Respectful) {b : Nat} {block other : Block} {facts : Facts L}
    (hsame : (a.visit b block facts).2 = false ∨ b ∉ a.direction.sources other) :
    a.gather (a.visit b block facts).1 other == a.gather facts other := by
  refine gather_congr ha fun s hs ↦ visit_blockLeave_beq ?_
  rcases hsame with hsame | hsource
  · exact Or.inl hsame
  · exact Or.inr fun heq ↦ hsource (heq ▸ hs)

/-- The records of a block are those of a visit with the facts that leave its sources now. -/
def Consistent (a : Analysis L) (facts : Facts L) (b : Nat) (block : Block) : Prop :=
  ∃ x y, (facts.blockEnter a.direction)[b]? = some x ∧
    a.Threaded facts (a.direction.path block) x y ∧
    (facts.blockLeave a.direction)[b]? = some y ∧ x == a.gather facts block

/-- A visit that does not change what a block takes in makes that block consistent if it is the
visited one, and keeps it so if it is another. -/
theorem consistent_visit (hg : g.WellFormed) (ha : a.Respectful) {b c : Nat} {block other : Block}
    (hb : g.block? b = some block) (hc : g.block? c = some other) {facts : Facts L}
    (hfits : facts.Fits g)
    (hsame : (a.visit b block facts).2 = false ∨ b ∉ a.direction.sources other)
    (h : c = b ∨ a.Consistent facts c other) :
    a.Consistent (a.visit b block facts).1 c other := by
  have hgather := gather_visit ha hsame
  by_cases hcb : c = b
  · subst hcb
    obtain rfl : block = other := Option.some.inj (hb.symm.trans hc)
    obtain ⟨y, henter, hthreaded, hleave⟩ := recorded_visit (a := a) hg hb hfits
    exact ⟨a.gather facts block, y, henter, hthreaded, hleave, BEq.symm hgather⟩
  · obtain ⟨x, y, henter, hthreaded, hleave, hx⟩ := h.resolve_left hcb
    refine ⟨x, y, ?_, hthreaded.congr fun i hi ↦ visit_instr_of_ne hg hb hc hcb facts hi, ?_,
      BEq.trans hx (BEq.symm hgather)⟩
    · rw [visit_blockEnter, Array.getElem?_setIfInBounds_ne (Ne.symm hcb), henter]
    · rw [visit_blockLeave, Array.getElem?_setIfInBounds_ne (Ne.symm hcb), hleave]

end Visit

end Analysis

end FlowFacts

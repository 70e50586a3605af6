import FlowFacts.Proofs.Fixpoint

/-!
Invariants of facts at program points. A property of facts is closed when the initial fact has it
everywhere and meet, steps of facts and the transfer of passed instructions keep it. A closed
property that holds of the facts at the start of a run holds of all facts at its end, whether the
run converges or not.
-/

set_option autoImplicit false
set_option relaxedAutoImplicit false

namespace FlowFacts

variable {L : Type}

/-- Every recorded fact has a property at its point. -/
structure Facts.Holds (facts : Facts L) (P : Point → L → Prop) : Prop where
  blockIn : ∀ {b : Nat} {x : L}, facts.blockIn[b]? = some x → P (.blockStart b) x
  blockOut : ∀ {b : Nat} {x : L}, facts.blockOut[b]? = some x → P (.blockEnd b) x
  instrIn : ∀ {i : Nat} {x : L}, facts.instrIn[i]? = some x → P (.before i) x
  instrOut : ∀ {i : Nat} {x : L}, facts.instrOut[i]? = some x → P (.after i) x

section Holds

variable {facts : Facts L} {P : Point → L → Prop}

theorem Facts.holds_iff (direction : Direction) :
    facts.Holds P ↔
      (∀ {b x}, (facts.blockEnter direction)[b]? = some x → P (direction.enter b) x) ∧
      (∀ {b x}, (facts.blockLeave direction)[b]? = some x → P (direction.leave b) x) ∧
      (∀ {i x}, (facts.instrEnter direction)[i]? = some x → P (direction.enterInstr i) x) ∧
      ∀ {i x}, (facts.instrLeave direction)[i]? = some x → P (direction.leaveInstr i) x := by
  cases direction with
  | forward =>
    exact ⟨fun h ↦ ⟨h.blockIn, h.blockOut, h.instrIn, h.instrOut⟩,
      fun h ↦ ⟨h.1, h.2.1, h.2.2.1, h.2.2.2⟩⟩
  | backward =>
    exact ⟨fun h ↦ ⟨h.blockOut, h.blockIn, h.instrOut, h.instrIn⟩,
      fun h ↦ ⟨h.2.1, h.1, h.2.2.2, h.2.2.1⟩⟩

theorem Facts.Holds.blockEnter (h : facts.Holds P) {direction : Direction} {b : Nat} {x : L}
    (hx : (facts.blockEnter direction)[b]? = some x) : P (direction.enter b) x :=
  ((holds_iff direction).mp h).1 hx

theorem Facts.Holds.blockLeave (h : facts.Holds P) {direction : Direction} {b : Nat} {x : L}
    (hx : (facts.blockLeave direction)[b]? = some x) : P (direction.leave b) x :=
  ((holds_iff direction).mp h).2.1 hx

theorem Facts.Holds.instrEnter (h : facts.Holds P) {direction : Direction} {i : Nat} {x : L}
    (hx : (facts.instrEnter direction)[i]? = some x) : P (direction.enterInstr i) x :=
  ((holds_iff direction).mp h).2.2.1 hx

theorem Facts.Holds.instrLeave (h : facts.Holds P) {direction : Direction} {i : Nat} {x : L}
    (hx : (facts.instrLeave direction)[i]? = some x) : P (direction.leaveInstr i) x :=
  ((holds_iff direction).mp h).2.2.2 hx

theorem getElem?_setIfInBounds_eq_some {items : Array L} {n k : Nat} {x y : L}
    (h : (items.setIfInBounds n x)[k]? = some y) : (k = n ∧ y = x) ∨ items[k]? = some y := by
  rw [Array.getElem?_setIfInBounds] at h
  split_ifs at h with hk
  · exact Or.inl ⟨hk.symm, (Option.some.inj h).symm⟩
  · exact Or.inr h

theorem Facts.Holds.recordBlock (h : facts.Holds P) {direction : Direction} {b : Nat} {x y : L}
    (hx : P (direction.enter b) x) (hy : P (direction.leave b) y) :
    (facts.recordBlock direction b x y).Holds P := by
  refine (holds_iff direction).mpr ⟨fun hz ↦ ?_, fun hz ↦ ?_, fun hz ↦ ?_, fun hz ↦ ?_⟩
  · rw [blockEnter_recordBlock] at hz
    rcases getElem?_setIfInBounds_eq_some hz with ⟨rfl, rfl⟩ | hz
    · exact hx
    · exact h.blockEnter hz
  · rw [blockLeave_recordBlock] at hz
    rcases getElem?_setIfInBounds_eq_some hz with ⟨rfl, rfl⟩ | hz
    · exact hy
    · exact h.blockLeave hz
  · rw [instrEnter_recordBlock] at hz
    exact h.instrEnter hz
  · rw [instrLeave_recordBlock] at hz
    exact h.instrLeave hz

theorem Facts.Holds.recordInstr (h : facts.Holds P) {direction : Direction} {i : Nat} {x y : L}
    (hx : P (direction.enterInstr i) x) (hy : P (direction.leaveInstr i) y) :
    (facts.recordInstr direction i x y).Holds P := by
  refine (holds_iff direction).mpr ⟨fun hz ↦ ?_, fun hz ↦ ?_, fun hz ↦ ?_, fun hz ↦ ?_⟩
  · rw [blockEnter_recordInstr] at hz
    exact h.blockEnter hz
  · rw [blockLeave_recordInstr] at hz
    exact h.blockLeave hz
  · rw [instrEnter_recordInstr] at hz
    rcases getElem?_setIfInBounds_eq_some hz with ⟨rfl, rfl⟩ | hz
    · exact hx
    · exact h.instrEnter hz
  · rw [instrLeave_recordInstr] at hz
    rcases getElem?_setIfInBounds_eq_some hz with ⟨rfl, rfl⟩ | hz
    · exact hy
    · exact h.instrLeave hz

theorem getElem?_replicate_eq_some {n k : Nat} {x initial : L}
    (h : (Array.replicate n initial)[k]? = some x) : x = initial := by
  rw [Array.getElem?_replicate] at h
  split_ifs at h
  exact (Option.some.inj h).symm

theorem Facts.holds_new (g : FlowGraph) {initial : L} (h : ∀ q, P q initial) :
    (new g initial).Holds P := by
  refine ⟨fun hx ↦ ?_, fun hx ↦ ?_, fun hx ↦ ?_, fun hx ↦ ?_⟩
  all_goals
    rw [getElem?_replicate_eq_some hx]
    exact h _

theorem Facts.Holds.at (h : facts.Holds P) {initial : L} (hinitial : ∀ q, P q initial)
    (q : Point) : P q (facts.at initial q) := by
  have hgetD : ∀ {items : Array L} {n : Nat} {p : Point}, (∀ {x}, items[n]? = some x → P p x) →
      P p (items.getD n initial) := by
    intro items n p hitems
    rw [Array.getD_eq_getD_getElem?]
    cases hget : items[n]? with
    | none => exact hinitial p
    | some x => exact hitems hget
  cases q with
  | blockStart b => exact hgetD h.blockIn
  | blockEnd b => exact hgetD h.blockOut
  | before i => exact hgetD h.instrIn
  | after i => exact hgetD h.instrOut

end Holds

namespace Analysis

/-- A property of facts at points that arises with the initial fact and spreads along the steps of
facts. -/
structure Closed (a : Analysis L) (g : FlowGraph) (P : Point → L → Prop) : Prop where
  initial : ∀ q : Point, P q a.initial
  meet : ∀ {q : Point} {x y : L}, P q x → P q y → P q (a.meet x y)
  stay : ∀ {p q : Point} {x : L}, Flow a.direction g p none q → P p x → P q x
  pass : ∀ {p q : Point} {i : Instr} {x : L}, Flow a.direction g p (some i) q → P p x →
    P q (a.transfer i x)

variable {a : Analysis L} {g : FlowGraph} {P : Point → L → Prop}

theorem getElem?_resize_eq_some {items : Array L} {n k : Nat} {x initial : L}
    (h : (Facts.resize items n initial)[k]? = some x) : items[k]? = some x ∨ x = initial := by
  rw [Facts.resize, Array.rightpad, Array.getElem?_append] at h
  split_ifs at h with hk
  · rw [Array.take_eq_extract, Array.getElem?_extract] at h
    split_ifs at h
    exact Or.inl (by simpa using h)
  · exact Or.inr (getElem?_replicate_eq_some h)

theorem holds_new (hclosed : a.Closed g P) : (Facts.new g a.initial).Holds P :=
  Facts.holds_new g hclosed.initial

theorem holds_fit (hclosed : a.Closed g P) {facts : Facts L} (h : facts.Holds P) :
    (facts.fit g a.initial).Holds P := by
  refine ⟨fun hx ↦ ?_, fun hx ↦ ?_, fun hx ↦ ?_, fun hx ↦ ?_⟩
  all_goals rcases getElem?_resize_eq_some hx with hx | rfl
  · exact h.blockIn hx
  · exact hclosed.initial _
  · exact h.blockOut hx
  · exact hclosed.initial _
  · exact h.instrIn hx
  · exact hclosed.initial _
  · exact h.instrOut hx
  · exact hclosed.initial _

theorem closed_gather (hclosed : a.Closed g P) {b : Nat} {block : Block}
    (hb : g.block? b = some block) {facts : Facts L} (h : facts.Holds P) :
    P (a.direction.enter b) (a.gather facts block) := by
  refine List.foldlRecOn (a.direction.sources block) _ (hclosed.initial _) fun x hx s hs ↦ ?_
  cases hleave : (facts.blockLeave a.direction)[s]? with
  | none => exact hx
  | some y => exact hclosed.meet hx (hclosed.stay (.edge hb hs) (h.blockLeave hleave))

/-- Facts taken through the rest of a block's path, from a fact that has the property where that
rest starts. -/
theorem holds_thread (hclosed : a.Closed g P) {b : Nat} {block : Block}
    (hb : g.block? b = some block) {rest : List Instr} (hrest : rest <:+ a.direction.path block)
    {x : L} {facts : Facts L} (h : facts.Holds P)
    (hfirst : ∀ {i}, rest.head? = some i → P (a.direction.enterInstr i.id) x)
    (hempty : rest = [] → P (a.direction.leave b) x) :
    (a.thread rest x facts).2.Holds P ∧
      P (a.direction.leave b) (a.thread rest x facts).1 := by
  induction rest generalizing x facts with
  | nil => exact ⟨h, hempty rfl⟩
  | cons i tail ih =>
    have hi : i ∈ g.instrs := FlowGraph.mem_instrs_of_block? hb
      (Direction.mem_path.mp (hrest.subset List.mem_cons_self))
    have henter : P (a.direction.enterInstr i.id) x := hfirst rfl
    have hleave : P (a.direction.leaveInstr i.id) (a.transfer i x) :=
      hclosed.pass (.execute hi) henter
    rw [thread]
    refine ih ((List.suffix_cons i tail).trans hrest) (h.recordInstr henter hleave)
      (fun {j} hj ↦ ?_) fun htail ↦ ?_
    · obtain ⟨rest, rfl⟩ := List.head?_eq_some_iff.mp hj
      have hpair : [i, j] <:+: i :: j :: rest := ⟨[], rest, rfl⟩
      exact hclosed.stay (.next hb (hpair.trans hrest.isInfix)) hleave
    · obtain ⟨front, hfront⟩ := hrest
      refine hclosed.stay (.last hb ?_) hleave
      rw [← hfront, htail, List.getLast?_concat]

variable [BEq L]

theorem holds_visit (hclosed : a.Closed g P) {b : Nat} {block : Block}
    (hb : g.block? b = some block) {facts : Facts L} (h : facts.Holds P) :
    (a.visit b block facts).1.Holds P := by
  have hgather := closed_gather hclosed hb h
  obtain ⟨hthread, hleave⟩ := holds_thread hclosed hb (List.suffix_refl _) h
    (fun hi ↦ hclosed.stay (.first hb hi) hgather)
    (fun hempty ↦ hclosed.stay (.pass hb hempty) hgather)
  rw [visit_eq_visitAlong]
  exact hthread.recordBlock hgather hleave

/-- Closed properties hold of the facts that a solver leaves if they hold of those it starts
from. -/
theorem holds_solveFrom (hclosed : a.Closed g P) (strategy : Strategy) (limit : Nat)
    {start : Facts L} (h : start.Holds P) :
    (a.solveFrom strategy g limit start).facts.Holds P := by
  cases hempty : g.isEmpty with
  | true =>
    rw [facts_solveFrom_of_isEmpty hempty]
    exact h
  | false =>
    exact solveFrom_preserves (P := fun facts ↦ facts.Holds P)
      (fun hb hfacts ↦ holds_visit hclosed hb hfacts) hempty strategy limit (holds_fit hclosed h)

theorem holds_of_solve_ok {P : Point → L → Prop} (hclosed : a.Closed g P) {c : Config}
    {r : Results L} (h : a.solve c g = .ok r) (q : Point) : P q (r.at q) := by
  obtain ⟨stats, -, rfl⟩ := solve_eq_ok_iff.mp h
  rw [Results.at_eq]
  exact (holds_solveFrom hclosed c.strategy c.limit (holds_new hclosed)).at hclosed.initial q

end Analysis

end FlowFacts

import Mathlib.Data.List.Nodup
import FlowFacts.FlowGraph.Draft

/-!
Graphs that a draft builds. An edge stands in the successor list of its source and in the
predecessor list of its target, both of them blocks, and the instructions are numbered from zero
without gaps. Hence two instructions of one number are the same, and different blocks hold
different numbers.
-/

set_option autoImplicit false
set_option relaxedAutoImplicit false

namespace FlowFacts

namespace FlowGraph

/-- What every built graph guarantees. -/
structure WellFormed (g : FlowGraph) : Prop where
  lt_of_mem_succs : ∀ {b s : Nat}, s ∈ g.succs b → s < g.blockCount
  mem_preds_iff : ∀ {b s : Nat}, b ∈ g.preds s ↔ s ∈ g.succs b
  map_id_instrs : g.instrs.map Instr.id = List.range g.instrCount

variable {g : FlowGraph}

theorem lt_blockCount_of_block? {b : Nat} {block : Block} (h : g.block? b = some block) :
    b < g.blockCount := by
  obtain ⟨hlt, -⟩ := Array.getElem?_eq_some_iff.mp h
  exact hlt

theorem exists_block?_of_lt {b : Nat} (h : b < g.blockCount) : ∃ block, g.block? b = some block :=
  ⟨g.blocks[b], Array.getElem?_eq_getElem h⟩

theorem isEmpty_eq_false_iff : g.isEmpty = false ↔ 0 < g.blockCount := by
  simp [isEmpty, blockCount, Nat.pos_iff_ne_zero]

theorem blockCount_of_isEmpty (h : g.isEmpty = true) : g.blockCount = 0 := by
  simpa [isEmpty, blockCount] using h

theorem isEmpty_eq_false_of_block? {b : Nat} {block : Block} (h : g.block? b = some block) :
    g.isEmpty = false :=
  isEmpty_eq_false_iff.mpr (Nat.zero_lt_of_lt (lt_blockCount_of_block? h))

theorem succs_of_block? {b : Nat} {block : Block} (h : g.block? b = some block) :
    g.succs b = block.succs := by
  simp [succs, h]

theorem preds_of_block? {b : Nat} {block : Block} (h : g.block? b = some block) :
    g.preds b = block.preds := by
  simp [preds, h]

theorem neighbours_of_le {b : Nat} (h : g.blockCount ≤ b) : g.succs b = [] ∧ g.preds b = [] := by
  have hnone : g.block? b = none := Array.getElem?_eq_none h
  simp [succs, preds, hnone]

theorem exists_block?_of_mem_succs {b s : Nat} (h : s ∈ g.succs b) :
    ∃ block, g.block? b = some block ∧ s ∈ block.succs := by
  cases hblock : g.block? b with
  | none => simp [succs, hblock] at h
  | some block => exact ⟨block, rfl, by simpa [succs, hblock] using h⟩

theorem mem_instrs_of_block? {b : Nat} {block : Block} {i : Instr} (h : g.block? b = some block)
    (hi : i ∈ block.instrs) : i ∈ g.instrs :=
  List.mem_flatMap.mpr ⟨block, Array.mem_toList_iff.mpr (Array.mem_of_getElem? h), hi⟩

theorem exists_block?_of_mem_instrs {i : Instr} (h : i ∈ g.instrs) :
    ∃ b block, g.block? b = some block ∧ i ∈ block.instrs := by
  obtain ⟨block, hblock, hi⟩ := List.mem_flatMap.mp h
  obtain ⟨b, hb⟩ := Array.mem_iff_getElem?.mp (Array.mem_toList_iff.mp hblock)
  exact ⟨b, block, hb, hi⟩

theorem mem_exits {b : Nat} : b ∈ g.exits ↔ b < g.blockCount ∧ g.succs b = [] := by
  simp [exits, blockIds]

theorem pairwise_exits (g : FlowGraph) : g.exits.Pairwise (· < ·) :=
  List.pairwise_lt_range.filter _

theorem varName_of_getElem? {v : Nat} {name : String} (h : g.varNames.toList[v]? = some name) :
    g.varName v = name := by
  rw [varName, Array.getD_eq_getD_getElem?, ← Array.getElem?_toList, h, Option.getD_some]

/-- With distinct names, the name at a place is found there. -/
theorem var?_eq_some_of_nodup (h : g.varNames.toList.Nodup) {v : Nat} {name : String}
    (hv : g.varNames.toList[v]? = some name) : g.var? name = some v := by
  obtain ⟨hlt, hname⟩ := List.getElem?_eq_some_iff.mp hv
  refine Array.findIdx?_eq_some_iff_getElem.mpr ⟨hlt, beq_iff_eq.mpr hname, fun j hj hsame ↦ ?_⟩
  have hjv : g.varNames.toList[j]? = g.varNames.toList[v]? := by
    rw [hv, Array.getElem?_toList, Array.getElem?_eq_getElem (Nat.lt_trans hj hlt),
      beq_iff_eq.mp hsame]
  exact Nat.ne_of_lt hj ((List.getElem?_inj (Nat.lt_trans hj hlt) h).mp hjv)

namespace WellFormed

theorem lt_of_mem_preds (hg : g.WellFormed) {b s : Nat} (h : b ∈ g.preds s) : b < g.blockCount := by
  obtain ⟨block, hblock, -⟩ := exists_block?_of_mem_succs (hg.mem_preds_iff.mp h)
  exact lt_blockCount_of_block? hblock

theorem id_lt (hg : g.WellFormed) {i : Instr} (h : i ∈ g.instrs) : i.id < g.instrCount := by
  have hid : i.id ∈ g.instrs.map Instr.id := List.mem_map_of_mem h
  rwa [hg.map_id_instrs, List.mem_range] at hid

theorem nodup_map_id (hg : g.WellFormed) : (g.instrs.map Instr.id).Nodup := by
  rw [hg.map_id_instrs]
  exact List.nodup_range

theorem eq_of_id_eq (hg : g.WellFormed) {i j : Instr} (hi : i ∈ g.instrs) (hj : j ∈ g.instrs)
    (h : i.id = j.id) : i = j :=
  List.inj_on_of_nodup_map hg.nodup_map_id hi hj h

/-- The numbers in the blocks, one list for each block, are free of repetitions. -/
theorem pairwise_ids (hg : g.WellFormed) :
    (∀ block ∈ g.blocks.toList, (block.instrs.map Instr.id).Nodup) ∧
      g.blocks.toList.Pairwise fun block other ↦
        ∀ n ∈ block.instrs.map Instr.id, ∀ m ∈ other.instrs.map Instr.id, n ≠ m := by
  have hnodup := hg.nodup_map_id
  rw [instrs, List.map_flatMap, List.Nodup, List.pairwise_flatMap] at hnodup
  exact hnodup

theorem nodup_ids (hg : g.WellFormed) {b : Nat} {block : Block} (h : g.block? b = some block) :
    (block.instrs.map Instr.id).Nodup :=
  hg.pairwise_ids.1 block (Array.mem_toList_iff.mpr (Array.mem_of_getElem? h))

theorem id_ne_of_ne (hg : g.WellFormed) {b c : Nat} {block other : Block}
    (hb : g.block? b = some block) (hc : g.block? c = some other) (hne : b ≠ c) {i j : Instr}
    (hi : i ∈ block.instrs) (hj : j ∈ other.instrs) : i.id ≠ j.id := by
  have hpairs := List.pairwise_iff_getElem.mp hg.pairwise_ids.2
  obtain ⟨hblt, hbget⟩ := Array.getElem?_eq_some_iff.mp hb
  obtain ⟨hclt, hcget⟩ := Array.getElem?_eq_some_iff.mp hc
  have hin : i.id ∈ block.instrs.map Instr.id := List.mem_map_of_mem hi
  have hjn : j.id ∈ other.instrs.map Instr.id := List.mem_map_of_mem hj
  rcases Nat.lt_or_gt_of_ne hne with hlt | hlt
  · exact hpairs b c (by simpa using hblt) (by simpa using hclt) hlt _ (by simpa [hbget] using hin)
      _ (by simpa [hcget] using hjn)
  · exact (hpairs c b (by simpa using hclt) (by simpa using hblt) hlt _
      (by simpa [hcget] using hjn) _ (by simpa [hbget] using hin)).symm

/-- An instruction is found at the one place that holds it. -/
theorem locate?_eq_some_iff (hg : g.WellFormed) {i b k : Nat} :
    g.locate? i = some (b, k) ↔
      ∃ block instr, g.block? b = some block ∧ block.instrs[k]? = some instr ∧ instr.id = i := by
  have hfound : ∀ {c j : Nat}, g.locate? i = some (c, j) →
      ∃ block instr, g.block? c = some block ∧ block.instrs[j]? = some instr ∧ instr.id = i := by
    intro c j h
    obtain ⟨before, ⟨block, c'⟩, after, hsplit, hblock, -⟩ := List.findSome?_eq_some_iff.mp h
    have hmem : (block, c') ∈ g.blocks.toList.zipIdx := hsplit ▸ by simp
    rw [List.mk_mem_zipIdx_iff_getElem?, Array.getElem?_toList] at hmem
    obtain ⟨j', hj, heq⟩ := Option.map_eq_some_iff.mp hblock
    obtain ⟨rfl, rfl⟩ := Prod.mk.inj heq
    obtain ⟨hlt, hid, -⟩ := List.findIdx?_eq_some_iff_getElem.mp hj
    exact ⟨block, _, hmem, List.getElem?_eq_getElem hlt, beq_iff_eq.mp hid⟩
  refine ⟨hfound, fun ⟨block, instr, hb, hk, hid⟩ ↦ ?_⟩
  cases hlocate : g.locate? i with
  | none =>
    have hnone := List.findSome?_eq_none_iff.mp hlocate (block, b)
      (List.mk_mem_zipIdx_iff_getElem?.mpr (by simpa [block?] using hb))
    rw [Option.map_eq_none_iff, List.findIdx?_eq_none_iff] at hnone
    exact absurd hid (by simpa using hnone instr (List.mem_of_getElem? hk))
  | some place =>
    obtain ⟨c, j⟩ := place
    obtain ⟨other, instr', hc, hj, hid'⟩ := hfound hlocate
    have hcb : c = b := by
      by_contra hne
      exact hg.id_ne_of_ne hc hb hne (List.mem_of_getElem? hj) (List.mem_of_getElem? hk)
        (hid'.trans hid.symm)
    subst hcb
    obtain rfl : block = other := Option.some.inj (hb.symm.trans hc)
    have hids : (block.instrs.map Instr.id)[j]? = (block.instrs.map Instr.id)[k]? := by
      rw [List.getElem?_map, List.getElem?_map, hj, hk, Option.map_some, Option.map_some, hid, hid']
    have hlt : j < (block.instrs.map Instr.id).length := by
      rw [List.length_map]
      exact (List.getElem?_eq_some_iff.mp hj).1
    rw [(List.getElem?_inj hlt (hg.nodup_ids hb)).mp hids]

end WellFormed

end FlowGraph

namespace Draft

theorem length_number (first : Nat) (blocks : List (Array Stmt)) :
    (number first blocks).length = blocks.length := by
  induction blocks generalizing first with
  | nil => rfl
  | cons stmts rest ih => simp [number, ih]

/-- Consecutive blocks take consecutive numbers. -/
theorem map_id_flatten_number (first : Nat) (blocks : List (Array Stmt)) :
    (number first blocks).flatten.map Instr.id =
      List.range' first (number first blocks).flatten.length := by
  induction blocks generalizing first with
  | nil => rfl
  | cons stmts rest ih =>
    have hhead : (stmts.toList.zipIdx first).map Prod.snd = List.range' first stmts.size :=
      List.zipIdx_map_snd first stmts.toList
    rw [number, List.flatten_cons, List.map_append, List.map_map, ih, List.length_append,
      List.length_map, List.length_zipIdx, ← List.range'_append_1]
    exact congrArg (· ++ _) hhead

theorem map_stmt_number (first : Nat) (blocks : List (Array Stmt)) :
    (number first blocks).map (List.map Instr.stmt) = blocks.map Array.toList := by
  induction blocks generalizing first with
  | nil => rfl
  | cons stmts rest ih =>
    rw [number, List.map_cons, List.map_cons, ih, List.map_map]
    exact congrArg (· :: _) (List.zipIdx_map_fst first stmts.toList)

theorem instrs_toFlowGraph (d : Draft) :
    d.toFlowGraph.instrs = (number 0 d.blocks.toList).flatten := by
  simp only [FlowGraph.instrs, toFlowGraph, List.flatMap_map]
  rw [List.flatMap_def]
  exact congrArg List.flatten (List.zipIdx_map_fst 0 (number 0 d.blocks.toList))

theorem blockCount_toFlowGraph (d : Draft) : d.toFlowGraph.blockCount = d.blocks.size := by
  simp [FlowGraph.blockCount, toFlowGraph, length_number]

theorem block?_toFlowGraph (d : Draft) (b : Nat) :
    d.toFlowGraph.block? b = (number 0 d.blocks.toList)[b]?.map fun instrs ↦
      { instrs := instrs
        succs := Digraph.targetsOf d.edges.toList b
        preds := Digraph.sourcesOf d.edges.toList b } := by
  simp only [FlowGraph.block?, toFlowGraph, List.getElem?_toArray, List.getElem?_map,
    List.getElem?_zipIdx, Option.map_map, Nat.zero_add]
  rfl

/-- The blocks of a draft's graph have the neighbours that its edges give. -/
theorem neighbours_toFlowGraph (d : Draft) {b : Nat} (hb : b < d.blocks.size) :
    d.toFlowGraph.succs b = Digraph.targetsOf d.edges.toList b ∧
      d.toFlowGraph.preds b = Digraph.sourcesOf d.edges.toList b := by
  have hlt : b < (number 0 d.blocks.toList).length := by simpa [length_number] using hb
  have hblock := d.block?_toFlowGraph b
  rw [List.getElem?_eq_getElem hlt, Option.map_some] at hblock
  exact ⟨FlowGraph.succs_of_block? hblock, FlowGraph.preds_of_block? hblock⟩

/-- The graph of a draft whose edges all join blocks has these edges in both lists. -/
theorem mem_succs_toFlowGraph {d : Draft}
    (hedges : ∀ e ∈ d.edges.toList, e.1 < d.blocks.size ∧ e.2 < d.blocks.size) (b s : Nat) :
    (s ∈ d.toFlowGraph.succs b ↔ (b, s) ∈ d.edges.toList) ∧
      (b ∈ d.toFlowGraph.preds s ↔ (b, s) ∈ d.edges.toList) := by
  have hsome : ∀ {c : Nat}, c < d.blocks.size →
      ∃ instrs, (number 0 d.blocks.toList)[c]? = some instrs := fun hc ↦
    ⟨_, List.getElem?_eq_getElem (by simpa [length_number] using hc)⟩
  constructor
  · constructor
    · intro h
      obtain ⟨block, hblock, hs⟩ := FlowGraph.exists_block?_of_mem_succs h
      rw [block?_toFlowGraph, Option.map_eq_some_iff] at hblock
      obtain ⟨instrs, -, rfl⟩ := hblock
      simpa [Digraph.targetsOf] using hs
    · intro h
      obtain ⟨instrs, hinstrs⟩ := hsome (hedges _ h).1
      rw [FlowGraph.succs, block?_toFlowGraph, hinstrs]
      simpa [Digraph.targetsOf] using h
  · cases hinstrs : (number 0 d.blocks.toList)[s]? with
    | none =>
      have hnot : (b, s) ∉ d.edges.toList := fun h ↦ by
        obtain ⟨instrs, hin⟩ := hsome (hedges _ h).2
        simp [hin] at hinstrs
      simpa [FlowGraph.preds, block?_toFlowGraph, hinstrs] using hnot
    | some instrs =>
      rw [FlowGraph.preds, block?_toFlowGraph, hinstrs]
      simp [Digraph.sourcesOf]

theorem edges_lt_of_danglingEdge?_eq_none {d : Draft} (h : d.danglingEdge? = none) :
    ∀ e ∈ d.edges.toList, e.1 < d.blocks.size ∧ e.2 < d.blocks.size := by
  intro e he
  have hnone := List.find?_eq_none.mp h e he
  simpa using hnone

theorem build_eq_ok_iff {d : Draft} {g : FlowGraph} :
    d.build = .ok g ↔ d.stray = none ∧ d.danglingEdge? = none ∧ g = d.toFlowGraph := by
  unfold build
  cases d.stray with
  | some block => simp
  | none =>
    cases d.danglingEdge? with
    | some edge => simp
    | none => simp [eq_comm]

theorem build_eq_unknownBlock_iff {d : Draft} {b : Nat} :
    d.build = .error (.unknownBlock b) ↔ d.stray = some b := by
  unfold build
  cases d.stray with
  | some block => simp
  | none =>
    cases d.danglingEdge? with
    | some edge => simp
    | none => simp

theorem build_eq_danglingEdge_iff {d : Draft} {s t n : Nat} :
    d.build = .error (.danglingEdge s t n) ↔
      d.stray = none ∧ d.danglingEdge? = some (s, t) ∧ n = d.blocks.size := by
  unfold build
  cases d.stray with
  | some block => simp
  | none =>
    cases d.danglingEdge? with
    | some edge =>
      obtain ⟨s', t'⟩ := edge
      simp [eq_comm, and_assoc]
    | none => simp

theorem eq_toFlowGraph_of_build {d : Draft} {g : FlowGraph} (h : d.build = .ok g) :
    d.danglingEdge? = none ∧ g = d.toFlowGraph :=
  (build_eq_ok_iff.mp h).2

theorem wellFormed_of_build {d : Draft} {g : FlowGraph} (h : d.build = .ok g) : g.WellFormed := by
  obtain ⟨hedge, rfl⟩ := eq_toFlowGraph_of_build h
  have hedges := edges_lt_of_danglingEdge?_eq_none hedge
  refine ⟨fun {b s} hs ↦ ?_, fun {b s} ↦ ?_, ?_⟩
  · rw [blockCount_toFlowGraph]
    exact (hedges _ ((mem_succs_toFlowGraph hedges b s).1.mp hs)).2
  · rw [(mem_succs_toFlowGraph hedges b s).1, (mem_succs_toFlowGraph hedges b s).2]
  · rw [FlowGraph.instrCount, instrs_toFlowGraph, map_id_flatten_number, List.range_eq_range']

theorem nodup_succs_of_build {d : Draft} {g : FlowGraph} (h : d.build = .ok g) (b : Nat) :
    (g.succs b).Nodup := by
  obtain ⟨-, rfl⟩ := eq_toFlowGraph_of_build h
  by_cases hb : b < d.blocks.size
  · rw [(d.neighbours_toFlowGraph hb).1, Digraph.targetsOf]
    refine (d.edges_nodup.filter _).map_on fun e he e' he' heq ↦ ?_
    have hsource := beq_iff_eq.mp (List.mem_filter.mp he).2
    have hsource' := beq_iff_eq.mp (List.mem_filter.mp he').2
    exact Prod.ext (hsource.trans hsource'.symm) heq
  · rw [(FlowGraph.neighbours_of_le (d.blockCount_toFlowGraph ▸ Nat.not_lt.mp hb)).1]
    exact List.nodup_nil

/-- A loop of one block that reads and writes a variable, entered from the entry and from an empty
block that nothing reaches. -/
def selfLoop : Draft where
  blocks := #[
    #[.assign 0 (.operand (.const (.int 1)))],
    #[.assign 0 (.binary .add (.var 0) (.var 1)), .branch (.var 0)],
    #[.call "log" 0, .ret (some (.var 0))],
    #[]]
  edges := #[(0, 1), (1, 1), (1, 2), (3, 1)]
  varNames := #["x"]
  stray := none
  edges_nodup := by decide
  varNames_nodup := by decide

end Draft

end FlowFacts

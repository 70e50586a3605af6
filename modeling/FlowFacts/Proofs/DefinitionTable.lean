import Mathlib.Data.List.Forall2
import Mathlib.Data.List.Induction
import FlowFacts.BitSet.Lemmas
import FlowFacts.Reaching
import FlowFacts.Proofs.BuiltGraph

/-!
The table of definitions is a faithful index of the assignments of a graph. It lists one definition
for each assignment, in the order of their places. What is filed under an instruction leads to the
definition that it makes, what is filed under a variable leads to the definitions of the variable,
and a fact resolves to its definitions, which fall into groups by variable.
-/

set_option autoImplicit false
set_option relaxedAutoImplicit false

namespace FlowFacts

/-! ### Definitions in order -/

namespace Definition

/-- The place of the definition in the graph holds this assignment to its variable. -/
structure MadeBy (d : Definition) (g : FlowGraph) (i : Instr) : Prop where
  instr : d.instr = some i.id
  target : i.target? = some d.var
  place : ∃ block, g.block? d.block = some block ∧ block.instrs[d.index]? = some i

theorem MadeBy.mem_instrs {d : Definition} {g : FlowGraph} {i : Instr} (h : d.MadeBy g i) :
    i ∈ g.instrs := by
  obtain ⟨block, hblock, hi⟩ := h.place
  exact FlowGraph.mem_instrs_of_block? hblock (List.mem_of_getElem? hi)

theorem exists_madeBy {g : FlowGraph} {i : Instr} (hi : i ∈ g.instrs) {v : Nat}
    (htarget : i.target? = some v) : ∃ d : Definition, d.MadeBy g i := by
  obtain ⟨b, block, hblock, hmem⟩ := FlowGraph.exists_block?_of_mem_instrs hi
  obtain ⟨k, hk⟩ := List.mem_iff_getElem?.mp hmem
  exact ⟨⟨v, b, k, some i.id⟩, rfl, htarget, block, hblock, hk⟩

/-- A definition stands where its instruction is found. -/
theorem MadeBy.locate?_eq {d : Definition} {g : FlowGraph} {i : Instr} (hg : g.WellFormed)
    (h : d.MadeBy g i) : g.locate? i.id = some (d.block, d.index) := by
  obtain ⟨block, hblock, hi⟩ := h.place
  exact hg.locate?_eq_some_iff.mpr ⟨block, i, hblock, hi, rfl⟩

/-- The strict order of definitions. -/
def Precedes (d e : Definition) : Prop :=
  d.le e = true ∧ e.le d = false

theorem precedes_of_block_lt {d e : Definition} (h : d.block < e.block) : d.Precedes e := by
  simp [Precedes, le, h, Nat.lt_asymm h, Nat.ne_of_gt h]

theorem precedes_of_index_lt {d e : Definition} (hblock : d.block = e.block)
    (h : d.index < e.index) : d.Precedes e := by
  simp [Precedes, le, hblock, h, Nat.lt_asymm h, Nat.ne_of_gt h]

theorem pairwise_snd_zipIdx {α : Type} (items : List α) :
    items.zipIdx.Pairwise fun p q ↦ p.2 < q.2 := by
  have hrange : (items.zipIdx.map Prod.snd).Pairwise (· < ·) := by
    rw [List.zipIdx_map_snd]
    exact List.pairwise_lt_range'
  exact List.pairwise_map.mp hrange

/-- The definitions of a graph ascend, by block and then by place in the block. -/
theorem pairwise_ofGraph (g : FlowGraph) : (ofGraph g).Pairwise Precedes := by
  refine List.pairwise_flatMap.mpr ⟨fun p _ ↦ ?_, ?_⟩
  · refine List.pairwise_filterMap.mpr ((pairwise_snd_zipIdx p.1.instrs).imp ?_)
    intro q r hlt d hd e he
    obtain ⟨v, -, rfl⟩ := Option.map_eq_some_iff.mp hd
    obtain ⟨w, -, rfl⟩ := Option.map_eq_some_iff.mp he
    exact precedes_of_index_lt rfl hlt
  · refine (pairwise_snd_zipIdx g.blocks.toList).imp fun {p q} hlt d hd e he ↦ ?_
    obtain ⟨r, -, hr⟩ := List.mem_filterMap.mp hd
    obtain ⟨u, -, hu⟩ := List.mem_filterMap.mp he
    obtain ⟨v, -, rfl⟩ := Option.map_eq_some_iff.mp hr
    obtain ⟨w, -, rfl⟩ := Option.map_eq_some_iff.mp hu
    exact precedes_of_block_lt hlt

end Definition

namespace DefTable

/-! ### The table of a graph -/

theorem toList_defs_foldl_record (defs : List Definition) (t : DefTable) :
    (defs.foldl record t).defs.toList = t.defs.toList ++ defs := by
  induction defs generalizing t with
  | nil => simp
  | cons d rest ih =>
    rw [List.foldl_cons, ih, record, Array.toList_push, List.append_assoc, List.singleton_append]

theorem size_byInstr_foldl_record (defs : List Definition) (t : DefTable) :
    (defs.foldl record t).byInstr.size = t.byInstr.size := by
  induction defs generalizing t with
  | nil => rfl
  | cons d rest ih => rw [List.foldl_cons, ih, record, size_fileInstr]

theorem toList_defs_ofGraph (g : FlowGraph) : (ofGraph g).defs.toList = Definition.ofGraph g := by
  rw [ofGraph, toList_defs_foldl_record]
  rfl

theorem size_byInstr_ofGraph (g : FlowGraph) : (ofGraph g).byInstr.size = g.instrCount := by
  rw [ofGraph, size_byInstr_foldl_record]
  exact Array.size_replicate

theorem mem_defs_ofGraph {g : FlowGraph} {d : Definition} :
    d ∈ (ofGraph g).defs ↔ ∃ i, d.MadeBy g i := by
  rw [← Array.mem_toList_iff, toList_defs_ofGraph]
  simp only [Definition.ofGraph, List.mem_flatMap, List.mem_filterMap, Prod.exists,
    List.mk_mem_zipIdx_iff_getElem?, Option.map_eq_some_iff, Array.getElem?_toList]
  constructor
  · rintro ⟨block, b, hblock, i, k, hi, v, hv, rfl⟩
    exact ⟨i, rfl, hv, block, hblock, hi⟩
  · rintro ⟨i, hinstr, hv, block, hblock, hi⟩
    refine ⟨block, d.block, hblock, i, d.index, hi, d.var, hv, ?_⟩
    rw [← hinstr]

theorem madeBy_of_instr_eq {g : FlowGraph} (hg : g.WellFormed) {d : Definition}
    (hd : d ∈ (ofGraph g).defs) {i : Instr} (hi : i ∈ g.instrs) (h : d.instr = some i.id) :
    d.MadeBy g i := by
  obtain ⟨j, hmade⟩ := mem_defs_ofGraph.mp hd
  have hid : j.id = i.id := Option.some.inj (hmade.instr.symm.trans h)
  rwa [hg.eq_of_id_eq hmade.mem_instrs hi hid] at hmade

theorem map_instr_ofGraph (g : FlowGraph) :
    (ofGraph g).defs.toList.map Definition.instr =
      g.instrs.filterMap fun i ↦ i.target?.map fun _ ↦ some i.id := by
  have hblock : ∀ p : Block × Nat, (p.1.instrs.zipIdx.filterMap fun q ↦
      (q.1.target?.map fun v ↦ (⟨v, p.2, q.2, some q.1.id⟩ : Definition))).map Definition.instr =
        p.1.instrs.filterMap fun i ↦ i.target?.map fun _ ↦ some i.id := by
    intro p
    rw [List.map_filterMap, ← List.zipIdx_map_fst 0 p.1.instrs, List.filterMap_map]
    simp [Function.comp_def]
  rw [toList_defs_ofGraph]
  simp only [Definition.ofGraph, FlowGraph.instrs, List.map_flatMap, hblock,
    List.filterMap_flatMap]
  rw [← List.flatMap_map (f := Prod.fst) (g := fun block : Block ↦ block.instrs.filterMap _),
    List.zipIdx_map_fst]

/-- An instruction makes at most one definition of the table. -/
theorem eq_of_instr_eq {g : FlowGraph} (hg : g.WellFormed) {m n : Nat} {d e : Definition}
    (hd : (ofGraph g).defs[m]? = some d) (he : (ofGraph g).defs[n]? = some e)
    (h : d.instr = e.instr) : m = n := by
  have hnodup : ((ofGraph g).defs.toList.map Definition.instr).Nodup := by
    rw [map_instr_ofGraph, List.Nodup, List.pairwise_filterMap]
    refine (List.pairwise_map.mp hg.nodup_map_id).imp fun {i j} hne ↦ ?_
    simp only [Option.map_eq_some_iff]
    rintro x ⟨v, -, rfl⟩ y ⟨w, -, rfl⟩ heq
    exact hne (Option.some.inj heq)
  rw [← Array.getElem?_toList] at hd he
  have hm : ((ofGraph g).defs.toList.map Definition.instr)[m]? = some d.instr := by simp [hd]
  have hn : ((ofGraph g).defs.toList.map Definition.instr)[n]? = some e.instr := by simp [he]
  obtain ⟨hlt, -⟩ := List.getElem?_eq_some_iff.mp hm
  exact (List.getElem?_inj hlt hnodup).mp (by rw [hm, hn, h])

theorem mem_idsWhere {t : DefTable} {p : Definition → Bool} {n : Nat} :
    n ∈ t.idsWhere p ↔ ∃ d, t.defs[n]? = some d ∧ p d = true := by
  simp [idsWhere, Definition.positions, List.mk_mem_zipIdx_iff_getElem?]

theorem idsOf_eq_idsWhere (t : DefTable) (v : Nat) : t.idsOf v = t.idsWhere (·.var == v) :=
  t.byVar_eq v

theorem mem_idsOf {t : DefTable} {v n : Nat} :
    n ∈ t.idsOf v ↔ ∃ d, t.defs[n]? = some d ∧ d.var = v := by
  rw [idsOf_eq_idsWhere, mem_idsWhere]
  simp only [beq_iff_eq]

theorem mem_ofVar {t : DefTable} {v : Nat} {d : Definition} :
    d ∈ t.ofVar v ↔ d ∈ t.defs ∧ d.var = v := by
  rw [ofVar, List.mem_filterMap, Array.mem_iff_getElem?]
  constructor
  · rintro ⟨n, hn, hd⟩
    obtain ⟨e, he, hvar⟩ := mem_idsOf.mp hn
    obtain rfl : e = d := Option.some.inj (he.symm.trans hd)
    exact ⟨⟨n, hd⟩, hvar⟩
  · rintro ⟨⟨n, hd⟩, hvar⟩
    exact ⟨n, mem_idsOf.mpr ⟨d, hd, hvar⟩, hd⟩

theorem idOf?_eq_getLast? {t : DefTable} {i : Nat} (hi : i < t.byInstr.size) :
    t.idOf? i = (t.idsWhere (·.instr == some i)).getLast? :=
  t.byInstr_eq i hi

theorem idOf?_eq_some_iff {g : FlowGraph} (hg : g.WellFormed) {i n : Nat} :
    (ofGraph g).idOf? i = some n ↔ ∃ d, (ofGraph g).defs[n]? = some d ∧ d.instr = some i := by
  have hmem : ∀ {m : Nat}, m ∈ (ofGraph g).idsWhere (·.instr == some i) ↔
      ∃ d, (ofGraph g).defs[m]? = some d ∧ d.instr = some i := by
    intro m
    rw [mem_idsWhere]
    simp only [beq_iff_eq]
  by_cases hi : i < (ofGraph g).byInstr.size
  · rw [idOf?_eq_getLast? hi, ← hmem]
    refine ⟨List.mem_of_getLast?, fun hn ↦ ?_⟩
    obtain ⟨m, hm⟩ := Option.isSome_iff_exists.mp
      (List.getLast?_isSome.mpr (List.ne_nil_of_mem hn))
    -- The instruction made one definition only, so the last one is the one at `n`.
    obtain ⟨d, hd, hinstr⟩ := hmem.mp hn
    obtain ⟨e, he, hinstr'⟩ := hmem.mp (List.mem_of_getLast? hm)
    rw [hm, eq_of_instr_eq hg he hd (hinstr'.trans hinstr.symm)]
  · rw [size_byInstr_ofGraph] at hi
    have hnone : (ofGraph g).idOf? i = none := by
      simp [idOf?, Array.getD, size_byInstr_ofGraph, hi]
    rw [hnone]
    refine iff_of_false nofun ?_
    rintro ⟨d, hd, hinstr⟩
    obtain ⟨j, hmade⟩ := mem_defs_ofGraph.mp (Array.mem_of_getElem? hd)
    rw [hmade.instr, Option.some_inj] at hinstr
    exact hi (hinstr ▸ hg.id_lt hmade.mem_instrs)

/-! ### Look-ups -/

variable {g : FlowGraph} {t : DefTable}

/-- Position by position, the table and the assignments of the graph belong together. -/
theorem forall₂_madeBy_ofGraph (hg : g.WellFormed) :
    List.Forall₂ (fun d i ↦ d.MadeBy g i) (ofGraph g).defs.toList
      (g.instrs.filter Instr.isAssign) := by
  have hinstrs : (ofGraph g).defs.toList.map Definition.instr =
      (g.instrs.filter Instr.isAssign).map fun i ↦ some i.id := by
    rw [map_instr_ofGraph, ← List.filterMap_eq_map', ← List.filterMap_eq_filter,
      List.filterMap_filterMap]
    refine List.filterMap_congr fun i _ ↦ ?_
    cases htarget : i.target? <;> simp [Instr.isAssign, htarget, Option.guard]
  refine List.forall₂_iff_get.mpr ⟨by simpa using congrArg List.length hinstrs, ?_⟩
  intro n hd hi
  have hinstr := congrArg (·[n]?) hinstrs
  simp only [List.getElem?_map, List.getElem?_eq_getElem hd, List.getElem?_eq_getElem hi,
    Option.map_some, Option.some_inj] at hinstr
  exact madeBy_of_instr_eq hg (Array.mem_toList_iff.mp (List.getElem_mem hd))
    (List.mem_of_mem_filter (List.getElem_mem hi)) hinstr

theorem ofInstr?_eq_some_iff (hg : g.WellFormed) {k : Nat} {d : Definition} :
    (ofGraph g).ofInstr? k = some d ↔ d ∈ (ofGraph g).defs ∧ d.instr = some k := by
  rw [ofInstr?, Option.bind_eq_some_iff, Array.mem_iff_getElem?]
  constructor
  · rintro ⟨n, hn, hd⟩
    obtain ⟨e, he, hinstr⟩ := (idOf?_eq_some_iff hg).mp hn
    obtain rfl : e = d := Option.some.inj (he.symm.trans hd)
    exact ⟨⟨n, hd⟩, hinstr⟩
  · rintro ⟨⟨n, hd⟩, hinstr⟩
    exact ⟨n, (idOf?_eq_some_iff hg).mpr ⟨d, hd, hinstr⟩, hd⟩

/-- Ascending positions hold ascending definitions. -/
theorem pairwise_filterMap_defs (hdefs : t.defs.toList.Pairwise Definition.Precedes)
    {positions : List Nat} (hpositions : positions.Pairwise (· < ·)) :
    (positions.filterMap (t.defs[·]?)).Pairwise Definition.Precedes := by
  refine List.pairwise_filterMap.mpr (hpositions.imp fun {m n} hlt d hd e he ↦ ?_)
  obtain ⟨hm, rfl⟩ := Array.getElem?_eq_some_iff.mp hd
  obtain ⟨hn, rfl⟩ := Array.getElem?_eq_some_iff.mp he
  exact List.pairwise_iff_getElem.mp hdefs m n (by simpa using hm) (by simpa using hn) hlt

theorem pairwise_idsWhere (t : DefTable) (p : Definition → Bool) :
    (t.idsWhere p).Pairwise (· < ·) :=
  List.pairwise_map.mpr ((Definition.pairwise_snd_zipIdx t.defs.toList).filter _)

theorem mem_resolve {fact : BitSet} {d : Definition} :
    d ∈ t.resolve fact ↔ ∃ n ∈ fact, t.defs[n]? = some d := by
  simp only [resolve, List.mem_filterMap, BitSet.mem_toList]

/-! ### Groups -/

/-- Lists of definitions of one variable each, by variable, that share out a list of definitions and
keep its order. -/
structure SharesOut (groups : List (Nat × List Definition)) (defs : List Definition) : Prop where
  ascending : (groups.map Prod.fst).Pairwise (· < ·)
  ne_nil : ∀ group ∈ groups, group.2 ≠ []
  var_eq : ∀ group ∈ groups, ∀ d ∈ group.2, d.var = group.1
  sublist : ∀ group ∈ groups, group.2.Sublist defs
  perm : (groups.flatMap Prod.snd).Perm defs

/-- Definitions with variables among distinct ones are the definitions of the first variable and
those of the others. -/
theorem perm_flatMap_filter {vars : List Nat} (hnodup : vars.Nodup) {defs : List Definition}
    (hvars : ∀ d ∈ defs, d.var ∈ vars) :
    (vars.flatMap fun v ↦ defs.filter (·.var == v)).Perm defs := by
  induction vars generalizing defs with
  | nil =>
    have hnil : defs = [] := List.eq_nil_iff_forall_not_mem.mpr fun d hd ↦ nomatch hvars d hd
    rw [hnil]
    rfl
  | cons v rest ih =>
    obtain ⟨hv, hrest⟩ := List.nodup_cons.mp hnodup
    have hothers : ∀ w ∈ rest, defs.filter (·.var == w) =
        (defs.filter fun d ↦ !(d.var == v)).filter (·.var == w) := by
      intro w hw
      rw [List.filter_filter]
      refine List.filter_congr fun d _ ↦ ?_
      by_cases heq : d.var = w
      · have hne : w ≠ v := fun h ↦ hv (h ▸ hw)
        simp [heq, hne]
      · simp [heq]
    rw [List.flatMap_cons, List.flatMap_congr hothers]
    refine ((ih hrest fun d hd ↦ ?_).append_left _).trans (List.filter_append_perm _ defs)
    obtain ⟨hmem, hne⟩ := List.mem_filter.mp hd
    exact (List.mem_cons.mp (hvars d hmem)).resolve_left (by simpa using hne)

/-- A definition goes behind those of its variable, or to a new group between the others. -/
theorem addToGroup_map {vars : List Nat} (hascending : vars.Pairwise (· < ·)) {d : Definition}
    (group : Nat → List Definition) (hnew : d.var ∉ vars → group d.var = []) :
    ∃ vars' : List Nat, vars'.Pairwise (· < ·) ∧ (∀ v, v ∈ vars' ↔ v = d.var ∨ v ∈ vars) ∧
      addToGroup (vars.map fun v ↦ (v, group v)) d =
        vars'.map fun v ↦ (v, if v = d.var then group v ++ [d] else group v) := by
  induction vars with
  | nil => exact ⟨[d.var], List.pairwise_singleton _ _, fun v ↦ by simp, by simp [addToGroup, hnew]⟩
  | cons v rest ih =>
    obtain ⟨hfirst, hrest⟩ := List.pairwise_cons.mp hascending
    have hkeep : d.var ∉ rest → (rest.map fun w ↦ (w, group w)) =
        rest.map fun w ↦ (w, if w = d.var then group w ++ [d] else group w) := by
      intro hnotMem
      refine List.map_congr_left fun w hw ↦ ?_
      have hne : w ≠ d.var := fun heq ↦ hnotMem (heq ▸ hw)
      rw [if_neg hne]
    rw [List.map_cons, addToGroup]
    split_ifs with hlt heq
    · have hbefore : ∀ w ∈ v :: rest, d.var < w :=
        List.forall_mem_cons.mpr ⟨hlt, fun w hw ↦ Nat.lt_trans hlt (hfirst w hw)⟩
      have hnotMem : d.var ∉ v :: rest := fun hmem ↦ Nat.lt_irrefl _ (hbefore _ hmem)
      refine ⟨d.var :: v :: rest, List.pairwise_cons.mpr ⟨hbefore, hascending⟩, fun w ↦ by simp, ?_⟩
      rw [hkeep fun hmem ↦ hnotMem (List.mem_cons_of_mem v hmem)]
      simp [hnew hnotMem, Nat.ne_of_gt hlt]
    · have hnotMem : d.var ∉ rest := fun hmem ↦ Nat.ne_of_lt (hfirst _ hmem) heq.symm
      refine ⟨v :: rest, hascending, fun w ↦ by simp [heq], ?_⟩
      rw [hkeep hnotMem]
      simp [heq]
    · obtain ⟨vars', hascending', hmem, heq'⟩ := ih hrest fun hnotMem ↦
        hnew fun h ↦ (List.mem_cons.mp h).elim heq hnotMem
      refine ⟨v :: vars', List.pairwise_cons.mpr ⟨fun w hw ↦ ?_, hascending'⟩, fun w ↦ ?_, ?_⟩
      · rcases (hmem w).mp hw with rfl | hw
        · omega
        · exact hfirst w hw
      · rw [List.mem_cons, List.mem_cons, hmem, or_left_comm]
      · rw [heq', List.map_cons, if_neg (Ne.symm heq)]

/-- Adding all definitions to groups leaves, for each variable that has some, those that a filter
would find. -/
theorem exists_foldl_addToGroup (defs : List Definition) :
    ∃ vars : List Nat, vars.Pairwise (· < ·) ∧ (∀ v, v ∈ vars ↔ v ∈ defs.map Definition.var) ∧
      defs.foldl addToGroup [] = vars.map fun v ↦ (v, defs.filter (·.var == v)) := by
  induction defs using List.reverseRecOn with
  | nil => exact ⟨[], List.Pairwise.nil, fun v ↦ Iff.rfl, rfl⟩
  | append_singleton defs d ih =>
    obtain ⟨vars, hascending, hmem, heq⟩ := ih
    have hnew : d.var ∉ vars → defs.filter (·.var == d.var) = [] := by
      intro hnotMem
      refine List.filter_eq_nil_iff.mpr fun e he hvar ↦ hnotMem ((hmem _).mpr ?_)
      exact beq_iff_eq.mp hvar ▸ List.mem_map_of_mem he
    obtain ⟨vars', hascending', hmem', hnext⟩ :=
      addToGroup_map hascending (fun v ↦ defs.filter (·.var == v)) hnew
    refine ⟨vars', hascending', fun v ↦ ?_, ?_⟩
    · rw [hmem', hmem, List.map_append, List.mem_append, or_comm]
      simp
    · rw [List.foldl_concat, heq, hnext]
      refine List.map_congr_left fun v _ ↦ ?_
      by_cases hv : v = d.var
      · simp [hv]
      · simp [hv, Ne.symm hv]

theorem sharesOut_groupByVar (t : DefTable) (fact : BitSet) :
    SharesOut (t.groupByVar fact) (t.resolve fact) := by
  obtain ⟨vars, hascending, hvars, hgroups⟩ := exists_foldl_addToGroup (t.resolve fact)
  have hgroup : ∀ group ∈ t.groupByVar fact, ∃ v ∈ (t.resolve fact).map Definition.var,
      (v, (t.resolve fact).filter (·.var == v)) = group := by
    intro group hmem
    rw [groupByVar, hgroups] at hmem
    obtain ⟨v, hv, hpair⟩ := List.mem_map.mp hmem
    exact ⟨v, (hvars v).mp hv, hpair⟩
  refine ⟨?_, fun group hmem ↦ ?_, fun group hmem d hd ↦ ?_, fun group hmem ↦ ?_, ?_⟩
  · rw [groupByVar, hgroups, List.map_map]
    simpa [Function.comp_def] using hascending
  · obtain ⟨v, hv, rfl⟩ := hgroup group hmem
    obtain ⟨d, hd, hvar⟩ := List.mem_map.mp hv
    exact List.ne_nil_of_mem (List.mem_filter.mpr ⟨hd, beq_iff_eq.mpr hvar⟩)
  · obtain ⟨v, -, rfl⟩ := hgroup group hmem
    exact beq_iff_eq.mp (List.mem_filter.mp hd).2
  · obtain ⟨v, -, rfl⟩ := hgroup group hmem
    exact List.filter_sublist
  · rw [groupByVar, hgroups, List.flatMap_map]
    exact perm_flatMap_filter (hascending.imp Nat.ne_of_lt) fun d hd ↦
      (hvars d.var).mpr (List.mem_map_of_mem hd)

/-! ### The index -/

/-- A table indexes the assignments of a graph. -/
structure Indexes (t : DefTable) (g : FlowGraph) : Prop where
  ascending : t.defs.toList.Pairwise Definition.Precedes
  assignments : List.Forall₂ (fun d i ↦ d.MadeBy g i) t.defs.toList
    (g.instrs.filter Instr.isAssign)
  ofInstr?_iff : ∀ k : Nat, (∃ d, t.ofInstr? k = some d) ↔
    ∃ i ∈ g.instrs, i.id = k ∧ i.isAssign = true
  ofInstr? : ∀ {k : Nat} {d : Definition}, t.ofInstr? k = some d →
    (∃ i ∈ g.instrs, i.id = k ∧ i.target? = some d.var) ∧
      g.locate? k = some (d.block, d.index) ∧ d.instr = some k ∧ d ∈ t.defs
  ofVar : ∀ v : Nat, (t.ofVar v).Pairwise Definition.Precedes ∧
    ∀ d, d ∈ t.ofVar v ↔ d ∈ t.defs ∧ d.var = v
  resolve : ∀ fact : BitSet, (t.resolve fact).Pairwise Definition.Precedes ∧
    ∀ d, d ∈ t.resolve fact ↔ ∃ n ∈ fact, t.defs[n]? = some d
  groupByVar : ∀ fact : BitSet, SharesOut (t.groupByVar fact) (t.resolve fact)

/-- The table of a built graph indexes its assignments. -/
theorem table_indexes_assignments {draft : Draft} (hbuild : draft.build = .ok g) :
    (ofGraph g).Indexes g := by
  have hg := draft.wellFormed_of_build hbuild
  have hascending : (ofGraph g).defs.toList.Pairwise Definition.Precedes := by
    rw [toList_defs_ofGraph]
    exact Definition.pairwise_ofGraph g
  refine ⟨hascending, forall₂_madeBy_ofGraph hg, fun k ↦ ?_, fun {k d} hfound ↦ ?_, fun v ↦ ?_,
    fun fact ↦ ?_, sharesOut_groupByVar _⟩
  · simp only [ofInstr?_eq_some_iff hg]
    constructor
    · rintro ⟨d, hd, hinstr⟩
      obtain ⟨i, hmade⟩ := mem_defs_ofGraph.mp hd
      have hid : i.id = k := Option.some.inj (hmade.instr.symm.trans hinstr)
      exact ⟨i, hmade.mem_instrs, hid, by simp [Instr.isAssign, hmade.target]⟩
    · rintro ⟨i, hi, rfl, hassign⟩
      obtain ⟨v, htarget⟩ := Option.isSome_iff_exists.mp hassign
      obtain ⟨d, hmade⟩ := Definition.exists_madeBy hi htarget
      exact ⟨d, mem_defs_ofGraph.mpr ⟨i, hmade⟩, hmade.instr⟩
  · obtain ⟨hd, hinstr⟩ := (ofInstr?_eq_some_iff hg).mp hfound
    obtain ⟨i, hmade⟩ := mem_defs_ofGraph.mp hd
    obtain rfl : i.id = k := Option.some.inj (hmade.instr.symm.trans hinstr)
    exact ⟨⟨i, hmade.mem_instrs, rfl, hmade.target⟩, hmade.locate?_eq hg, hinstr, hd⟩
  · refine ⟨?_, fun d ↦ mem_ofVar⟩
    rw [ofVar, idsOf_eq_idsWhere]
    exact pairwise_filterMap_defs hascending (pairwise_idsWhere _ _)
  · exact ⟨pairwise_filterMap_defs hascending (BitSet.pairwise_toList fact), fun d ↦ mem_resolve⟩

/-- Two assignments of a variable, with an empty block between them, and one of a variable that has
no name. -/
def outlying : Draft where
  blocks := #[
    #[.assign 0 (.operand (.const (.int 1))), .call "log" 0, .assign 6 (.operand (.var 0))],
    #[],
    #[.assign 0 (.operand (.var 6)), .ret none]]
  edges := #[(0, 1), (1, 2)]
  varNames := #["x"]
  stray := none
  edges_nodup := by decide
  varNames_nodup := List.nodup_singleton "x"

/-- The assignment of the variable without a name is found, and a fact with a position past the end
of the table falls into groups. -/
theorem table_indexes_assignments_outlying :
    let g := outlying.toFlowGraph
    let t := ofGraph g
    outlying.build = .ok g ∧ t.Indexes g ∧ g.varCount = 1 ∧
      (∃ d, t.ofInstr? 2 = some d ∧ g.locate? 2 = some (d.block, d.index)) ∧
      (t.ofVar 6).map Definition.instr = [some 2] ∧
      (t.groupByVar (.ofList 0 [0, 1, 2, 9])).map
        (fun group ↦ (group.1, group.2.map fun d ↦ (d.block, d.index))) =
          [(0, [(0, 0), (2, 0)]), (6, [(0, 2)])] := by
  intro g t
  have hbuild : outlying.build = .ok g := rfl
  have hindexes := table_indexes_assignments hbuild
  have hassign : ⟨2, .assign 6 (.operand (.var 0))⟩ ∈ g.instrs := by decide
  obtain ⟨d, hfound⟩ := (hindexes.ofInstr?_iff 2).mpr ⟨_, hassign, rfl, rfl⟩
  obtain ⟨-, hplace, -⟩ := hindexes.ofInstr? hfound
  exact ⟨hbuild, hindexes, rfl, ⟨d, hfound, hplace⟩, by decide +kernel, by decide +kernel⟩

end DefTable

end FlowFacts

import Mathlib.Data.List.Infix
import FlowFacts.Proofs.BuiltGraph

/-!
Drafts as histories of calls. What a draft holds after any calls can be read off the calls: its
blocks and their statements, its edges and names by first occurrence, and the first push that came
too early. So a draft builds if and only if every push went to a block that existed at that moment
and every edge joins blocks that exist in the end, a refusal names the first fault, and the graph is
the one that the calls describe.
-/

set_option autoImplicit false
set_option relaxedAutoImplicit false

namespace FlowFacts

namespace Draft

/-- A call on a draft. Assignments, calls, branches, jumps and returns are all pushed as
statements. -/
inductive Call where
  | addBlock
  | intern (name : String)
  | push (block : Nat) (stmt : Stmt)
  | addEdge (source target : Nat)
  deriving DecidableEq

def Call.apply (d : Draft) : Call → Draft
  | addBlock => d.addBlock.2
  | intern name => (d.intern name).2
  | push block stmt => d.push block stmt
  | addEdge source target => d.addEdge source target

/-- The draft that calls leave, from the empty one. -/
def ofCalls (calls : List Call) : Draft :=
  calls.foldl Call.apply ∅

theorem ofCalls_concat (calls : List Call) (call : Call) :
    ofCalls (calls ++ [call]) = call.apply (ofCalls calls) :=
  List.foldl_concat Call.apply ∅ call calls

/-! ### What calls ask for -/

/-- How many blocks calls add. -/
def blocksAdded (calls : List Call) : Nat :=
  calls.count .addBlock

/-- The statements that calls push to a block, in order. -/
def stmtsFor (b : Nat) (calls : List Call) : List Stmt :=
  calls.filterMap fun
    | .push block stmt => if block = b then some stmt else none
    | _ => none

/-- The edges that calls add, in order, repeated as they are added. -/
def edgesAdded (calls : List Call) : List (Nat × Nat) :=
  calls.filterMap fun
    | .addEdge source target => some (source, target)
    | _ => none

/-- Every push goes to a block that exists at that moment. -/
def Timely (calls : List Call) : Prop :=
  ∀ before block stmt, before ++ [.push block stmt] <+: calls → block < blocksAdded before

/-- The first push to a block that does not exist at that moment goes to this block. -/
def FirstStray (calls : List Call) (block : Nat) : Prop :=
  ∃ before stmt, before ++ [.push block stmt] <+: calls ∧ blocksAdded before ≤ block ∧
    Timely before

/-- The first added edge with an end that is not among the final blocks. -/
def FirstDangling (calls : List Call) (edge : Nat × Nat) : Prop :=
  ∃ before after, edgesAdded calls = before ++ edge :: after ∧
    (blocksAdded calls ≤ edge.1 ∨ blocksAdded calls ≤ edge.2) ∧
    ∀ e ∈ before, e.1 < blocksAdded calls ∧ e.2 < blocksAdded calls

theorem timely_nil : Timely [] := by
  intro before block stmt hprefix
  simp at hprefix

theorem timely_concat {calls : List Call} {call : Call} :
    Timely (calls ++ [call]) ↔ Timely calls ∧
      ∀ block stmt, call = .push block stmt → block < blocksAdded calls := by
  constructor
  · intro h
    refine ⟨fun before block stmt hprefix ↦ h before block stmt ?_, fun block stmt hcall ↦ ?_⟩
    · exact hprefix.trans (List.prefix_append calls [call])
    · exact h calls block stmt (hcall ▸ List.prefix_rfl)
  · rintro ⟨hcalls, hcall⟩ before block stmt hprefix
    rcases List.prefix_concat_iff.mp hprefix with heq | hprefix
    · obtain ⟨rfl, rfl⟩ := List.append_singleton_inj.mp heq
      exact hcall block stmt rfl
    · exact hcalls before block stmt hprefix

theorem firstStray_concat {calls : List Call} {call : Call} {b : Nat} :
    FirstStray (calls ++ [call]) b ↔ FirstStray calls b ∨
      Timely calls ∧ ∃ stmt, call = .push b stmt ∧ blocksAdded calls ≤ b := by
  constructor
  · rintro ⟨before, stmt, hprefix, hlate, htimely⟩
    rcases List.prefix_concat_iff.mp hprefix with heq | hprefix
    · obtain ⟨rfl, rfl⟩ := List.append_singleton_inj.mp heq
      exact Or.inr ⟨htimely, stmt, rfl, hlate⟩
    · exact Or.inl ⟨before, stmt, hprefix, hlate, htimely⟩
  · rintro (⟨before, stmt, hprefix, hlate, htimely⟩ | ⟨htimely, stmt, rfl, hlate⟩)
    · exact ⟨before, stmt, hprefix.trans (List.prefix_append calls [call]), hlate, htimely⟩
    · exact ⟨calls, stmt, List.prefix_rfl, hlate, htimely⟩

theorem Timely.not_firstStray {calls : List Call} (h : Timely calls) (b : Nat) :
    ¬FirstStray calls b := by
  rintro ⟨before, stmt, hprefix, hlate, -⟩
  exact Nat.not_lt.mpr hlate (h before b stmt hprefix)

theorem Timely.stmtsFor_eq_nil {calls : List Call} (h : Timely calls) {b : Nat}
    (hb : blocksAdded calls ≤ b) : stmtsFor b calls = [] := by
  induction calls using List.reverseRecOn with
  | nil => rfl
  | append_singleton calls call ih =>
    obtain ⟨hcalls, hcall⟩ := timely_concat.mp h
    have hle : blocksAdded calls ≤ blocksAdded (calls ++ [call]) := by
      simp [blocksAdded]
    have hprevious := ih hcalls (hle.trans hb)
    rw [stmtsFor, List.filterMap_append, ← stmtsFor, hprevious, List.nil_append]
    cases call with
    | push block stmt =>
      have hne : block ≠ b := by
        have := hcall block stmt rfl
        omega
      simp [hne]
    | addBlock => rfl
    | intern name => rfl
    | addEdge source target => rfl

/-! ### First occurrences -/

section FirstOccurrences

variable {α : Type} [BEq α] [LawfulBEq α]

theorem eraseDups_concat (items : List α) (item : α) :
    (items ++ [item]).eraseDups =
      if item ∈ items then items.eraseDups else items.eraseDups ++ [item] := by
  rw [List.eraseDups_append, List.removeAll]
  split_ifs with hmem
  · simp [hmem]
  · simp [hmem, List.eraseDups_cons]

theorem find?_eraseDups (items : List α) (p : α → Bool) :
    items.eraseDups.find? p = items.find? p := by
  induction items using List.reverseRecOn with
  | nil => rfl
  | append_singleton items item ih =>
    rw [eraseDups_concat, List.find?_append]
    split_ifs with hmem
    · rw [ih]
      cases hfind : items.find? p with
      | some found => rfl
      | none =>
        have hnot := List.find?_eq_none.mp hfind item hmem
        simp [hnot]
    · rw [List.find?_append, ih]

theorem pairwise_eraseDups (items : List α) :
    items.eraseDups.Pairwise fun x y ↦ items.idxOf x < items.idxOf y := by
  induction items using List.reverseRecOn with
  | nil => exact List.Pairwise.nil
  | append_singleton items item ih =>
    have hkept : items.eraseDups.Pairwise fun x y ↦
        (items ++ [item]).idxOf x < (items ++ [item]).idxOf y := by
      refine ih.imp_of_mem fun {x y} hx hy hlt ↦ ?_
      rwa [List.idxOf_append_of_mem (List.mem_eraseDups.mp hx),
        List.idxOf_append_of_mem (List.mem_eraseDups.mp hy)]
    rw [eraseDups_concat]
    split_ifs with hmem
    · exact hkept
    · refine List.pairwise_append.mpr ⟨hkept, List.pairwise_singleton _ _, fun x hx y hy ↦ ?_⟩
      obtain rfl := List.mem_singleton.mp hy
      have hx := List.mem_eraseDups.mp hx
      rw [List.idxOf_append_of_mem hx, List.idxOf_append_of_notMem hmem]
      exact Nat.lt_add_right _ (List.idxOf_lt_length_iff.mpr hx)

end FirstOccurrences

/-! ### What a call changes -/

section Apply

variable (d : Draft)

theorem intern_keeps (name : String) :
    (d.intern name).2.blocks = d.blocks ∧ (d.intern name).2.stray = d.stray ∧
      (d.intern name).2.edges = d.edges := by
  unfold intern
  split_ifs <;> exact ⟨rfl, rfl, rfl⟩

theorem push_keeps (block : Nat) (stmt : Stmt) :
    (d.push block stmt).edges = d.edges ∧ (d.push block stmt).varNames = d.varNames := by
  unfold push
  split_ifs <;> exact ⟨rfl, rfl⟩

theorem addEdge_keeps (source target : Nat) :
    (d.addEdge source target).blocks = d.blocks ∧ (d.addEdge source target).stray = d.stray ∧
      (d.addEdge source target).varNames = d.varNames := by
  unfold addEdge
  split_ifs <;> exact ⟨rfl, rfl, rfl⟩

variable (call : Call)

theorem blocks_apply :
    (call.apply d).blocks =
      match call with
      | .addBlock => d.blocks.push #[]
      | .push block stmt => d.blocks.modify block (·.push stmt)
      | _ => d.blocks := by
  cases call with
  | addBlock => rfl
  | intern name => exact (d.intern_keeps name).1
  | push block stmt =>
    simp only [Call.apply, push]
    split_ifs with hlt
    · rfl
    · simp [Array.modify, Array.modifyM, hlt]
  | addEdge source target => exact (d.addEdge_keeps source target).1

theorem stray_apply :
    (call.apply d).stray =
      match call with
      | .push block _ => if block < d.blocks.size then d.stray else d.stray.or (some block)
      | _ => d.stray := by
  cases call with
  | addBlock => rfl
  | intern name => exact (d.intern_keeps name).2.1
  | push block stmt =>
    simp only [Call.apply, push]
    split_ifs <;> rfl
  | addEdge source target => exact (d.addEdge_keeps source target).2.1

theorem edges_apply :
    (call.apply d).edges.toList =
      match call with
      | .addEdge source target =>
        if (source, target) ∈ d.edges.toList then d.edges.toList
        else d.edges.toList ++ [(source, target)]
      | _ => d.edges.toList := by
  cases call with
  | addBlock => rfl
  | intern name => exact congrArg Array.toList (d.intern_keeps name).2.2
  | push block stmt => exact congrArg Array.toList (d.push_keeps block stmt).1
  | addEdge source target =>
    simp only [Call.apply, addEdge, Array.mem_toList_iff]
    split_ifs <;> simp

theorem varNames_apply :
    (call.apply d).varNames.toList =
      match call with
      | .intern name =>
        if name ∈ d.varNames.toList then d.varNames.toList else d.varNames.toList ++ [name]
      | _ => d.varNames.toList := by
  cases call with
  | addBlock => rfl
  | intern name =>
    simp only [Call.apply, intern, Array.mem_toList_iff]
    split_ifs <;> simp
  | push block stmt => exact congrArg Array.toList (d.push_keeps block stmt).2
  | addEdge source target => exact congrArg Array.toList (d.addEdge_keeps source target).2.2

end Apply

/-! ### What calls leave -/

theorem size_blocks_ofCalls (calls : List Call) :
    (ofCalls calls).blocks.size = blocksAdded calls := by
  induction calls using List.reverseRecOn with
  | nil => rfl
  | append_singleton calls call ih =>
    rw [ofCalls_concat, blocks_apply]
    cases call <;> simp [blocksAdded, ih]

theorem stray_ofCalls (calls : List Call) :
    ((ofCalls calls).stray = none ↔ Timely calls) ∧
      ∀ b, (ofCalls calls).stray = some b ↔ FirstStray calls b := by
  induction calls using List.reverseRecOn with
  | nil =>
    exact ⟨iff_of_true rfl timely_nil, fun b ↦
      iff_of_false (Option.some_ne_none b).symm (timely_nil.not_firstStray b)⟩
  | append_singleton calls call ih =>
    obtain ⟨hnone, hsome⟩ := ih
    rw [ofCalls_concat, stray_apply, timely_concat]
    simp only [firstStray_concat, ← hnone, ← hsome, ← size_blocks_ofCalls]
    cases call with
    | push block stmt =>
      by_cases hlt : block < (ofCalls calls).blocks.size
      · simp only [if_pos hlt]
        refine ⟨⟨fun h ↦ ⟨h, ?_⟩, And.left⟩, fun b ↦ ⟨Or.inl, ?_⟩⟩
        · rintro b other ⟨⟩
          exact hlt
        · rintro (h | ⟨-, other, ⟨⟩, hlate⟩)
          · exact h
          · exact absurd hlt (Nat.not_lt.mpr hlate)
      · simp only [if_neg hlt]
        have hlate := Nat.not_lt.mp hlt
        cases (ofCalls calls).stray with
        | none =>
          refine ⟨⟨fun h ↦ (nomatch h), fun h ↦ absurd (h.2 block stmt rfl) hlt⟩, fun b ↦ ⟨?_, ?_⟩⟩
          · rintro ⟨⟩
            exact Or.inr ⟨rfl, stmt, rfl, hlate⟩
          · rintro (h | ⟨-, other, ⟨⟩, -⟩)
            · cases h
            · rfl
        | some first => simp
    | addBlock => simp
    | intern name => simp
    | addEdge source target => simp

theorem blocks_ofCalls {calls : List Call} (h : Timely calls) {b : Nat}
    (hb : b < blocksAdded calls) :
    (ofCalls calls).blocks[b]? = some (stmtsFor b calls).toArray := by
  induction calls using List.reverseRecOn with
  | nil => exact absurd hb (Nat.not_lt_zero b)
  | append_singleton calls call ih =>
    obtain ⟨hcalls, hcall⟩ := timely_concat.mp h
    rw [ofCalls_concat, blocks_apply]
    cases call with
    | addBlock =>
      have hstmts : stmtsFor b (calls ++ [.addBlock]) = stmtsFor b calls := by simp [stmtsFor]
      have hle : b ≤ blocksAdded calls := by
        have hcount : blocksAdded (calls ++ [.addBlock]) = blocksAdded calls + 1 := by
          simp [blocksAdded]
        omega
      rw [hstmts, Array.getElem?_push, size_blocks_ofCalls]
      split_ifs with hnew
      · rw [hcalls.stmtsFor_eq_nil hnew.ge]
      · exact ih hcalls (by omega)
    | push block stmt =>
      have hstmts : stmtsFor b (calls ++ [.push block stmt]) =
          if block = b then stmtsFor b calls ++ [stmt] else stmtsFor b calls := by
        split_ifs with hblock <;> simp [stmtsFor, hblock]
      have hold := ih hcalls (by simpa [blocksAdded] using hb)
      rw [hstmts, Array.getElem?_modify]
      split_ifs with hblock
      · rw [hold, Option.map_some, List.push_toArray]
      · exact hold
    | intern name => simpa [stmtsFor] using ih hcalls (by simpa [blocksAdded] using hb)
    | addEdge source target => simpa [stmtsFor] using ih hcalls (by simpa [blocksAdded] using hb)

theorem edges_ofCalls (calls : List Call) :
    (ofCalls calls).edges.toList = (edgesAdded calls).eraseDups := by
  induction calls using List.reverseRecOn with
  | nil => rfl
  | append_singleton calls call ih =>
    rw [ofCalls_concat, edges_apply, edgesAdded, List.filterMap_append, ← edgesAdded]
    cases call with
    | addEdge source target =>
      rw [ih]
      simp only [List.mem_eraseDups]
      exact (eraseDups_concat _ _).symm
    | addBlock => simpa using ih
    | intern name => simpa using ih
    | push block stmt => simpa using ih

/-- Names keep their places while further calls are made. -/
theorem varNames_prefix (calls rest : List Call) :
    (ofCalls calls).varNames.toList <+: (ofCalls (calls ++ rest)).varNames.toList := by
  induction rest using List.reverseRecOn with
  | nil => rw [List.append_nil]
  | append_singleton rest call ih =>
    rw [← List.append_assoc, ofCalls_concat, varNames_apply]
    refine ih.trans ?_
    split
    · split_ifs
      · exact List.prefix_rfl
      · exact List.prefix_append _ _
    · exact List.prefix_rfl

/-- A variable that is handed out has the name that was asked for. -/
theorem getElem?_varNames_intern (d : Draft) (name : String) :
    (d.intern name).2.varNames.toList[(d.intern name).1]? = some name := by
  unfold intern
  split_ifs with hmem
  · have hfound : d.varNames.findIdx (· == name) < d.varNames.size :=
      Array.findIdx_lt_size_of_exists ⟨name, hmem, beq_self_eq_true name⟩
    have hname := Array.findIdx_getElem (w := hfound)
    simpa [hfound] using hname
  · simp

/-- The name stays where it was handed out. -/
theorem getElem?_varNames_of_prefix {calls before : List Call} {name : String}
    (h : before ++ [.intern name] <+: calls) :
    (ofCalls calls).varNames.toList[((ofCalls before).intern name).1]? = some name := by
  obtain ⟨rest, rfl⟩ := h
  obtain ⟨later, hlater⟩ := varNames_prefix (before ++ [.intern name]) rest
  have hgiven := (ofCalls before).getElem?_varNames_intern name
  rw [ofCalls_concat, Call.apply] at hlater
  rw [← hlater, List.getElem?_append_left (List.getElem?_eq_some_iff.mp hgiven).1]
  exact hgiven

/-! ### The outcome -/

theorem danglingEdge?_ofCalls (calls : List Call) :
    (ofCalls calls).danglingEdge? = (edgesAdded calls).find? fun e ↦
      !(e.1 < blocksAdded calls && e.2 < blocksAdded calls) := by
  rw [danglingEdge?, edges_ofCalls, size_blocks_ofCalls]
  exact find?_eraseDups _ _

theorem danglingEdge?_eq_some_iff {calls : List Call} {edge : Nat × Nat} :
    (ofCalls calls).danglingEdge? = some edge ↔ FirstDangling calls edge := by
  rw [danglingEdge?_ofCalls, List.find?_eq_some_iff_append]
  constructor
  · rintro ⟨hbad, before, after, hedges, hgood⟩
    exact ⟨before, after, hedges, by simpa using hbad, fun e he ↦ by simpa using hgood e he⟩
  · rintro ⟨before, after, hedges, hbad, hgood⟩
    exact ⟨by simpa using hbad, before, after, hedges, fun e he ↦ by simpa using hgood e he⟩

theorem danglingEdge?_eq_none_iff {calls : List Call} :
    (ofCalls calls).danglingEdge? = none ↔
      ∀ e ∈ edgesAdded calls, e.1 < blocksAdded calls ∧ e.2 < blocksAdded calls := by
  rw [danglingEdge?_ofCalls, List.find?_eq_none]
  simp

/-! ### The graph -/

/-- The graph holds what the calls asked for: blocks and variables under the numbers that were
handed out, statements as they were pushed and numbered without gaps, edges at both ends in the
order in which they were first added. -/
structure Describes (calls : List Call) (g : FlowGraph) : Prop where
  blockCount : g.blockCount = blocksAdded calls
  block_handed_out : ∀ {before : List Call}, before ++ [.addBlock] <+: calls →
    (ofCalls before).addBlock.1 = blocksAdded before ∧ blocksAdded before < g.blockCount
  stmts : ∀ {b : Nat} {block : Block}, g.block? b = some block →
    block.instrs.map Instr.stmt = stmtsFor b calls
  ids : g.instrs.map Instr.id = List.range g.instrCount
  locate : ∀ {i b k : Nat}, g.locate? i = some (b, k) ↔
    ∃ block instr, g.block? b = some block ∧ block.instrs[k]? = some instr ∧ instr.id = i
  mem_succs : ∀ {a b : Nat}, b ∈ g.succs a ↔ (a, b) ∈ edgesAdded calls
  mem_preds : ∀ {a b : Nat}, a ∈ g.preds b ↔ (a, b) ∈ edgesAdded calls
  succs_ordered : ∀ a : Nat, (g.succs a).Pairwise fun b c ↦
    (edgesAdded calls).idxOf (a, b) < (edgesAdded calls).idxOf (a, c)
  preds_ordered : ∀ b : Nat, (g.preds b).Pairwise fun a c ↦
    (edgesAdded calls).idxOf (a, b) < (edgesAdded calls).idxOf (c, b)
  nodup_neighbours : ∀ b : Nat, (g.succs b).Nodup ∧ (g.preds b).Nodup
  mem_exits : ∀ {b : Nat}, b ∈ g.exits ↔ b < g.blockCount ∧ g.succs b = []
  exits_ascending : g.exits.Pairwise (· < ·)
  names_distinct : g.varNames.toList.Nodup
  var_handed_out : ∀ {before : List Call} {name : String}, before ++ [.intern name] <+: calls →
    g.varName ((ofCalls before).intern name).1 = name ∧
      g.var? (g.varName ((ofCalls before).intern name).1) = some ((ofCalls before).intern name).1

theorem map_stmt_of_block? {calls : List Call} (htimely : Timely calls) {b : Nat} {block : Block}
    (h : (ofCalls calls).toFlowGraph.block? b = some block) :
    block.instrs.map Instr.stmt = stmtsFor b calls := by
  have hlt := FlowGraph.lt_blockCount_of_block? h
  rw [blockCount_toFlowGraph, size_blocks_ofCalls] at hlt
  have hblocks := blocks_ofCalls htimely hlt
  rw [block?_toFlowGraph, Option.map_eq_some_iff] at h
  obtain ⟨instrs, hinstrs, rfl⟩ := h
  have hstmts := congrArg (·[b]?) (map_stmt_number 0 (ofCalls calls).blocks.toList)
  simpa [hinstrs, hblocks] using hstmts

/-- Neighbours stand in the order in which their edges were first added. -/
theorem pairwise_neighbours (calls : List Call) (b : Nat) :
    ((ofCalls calls).toFlowGraph.succs b).Pairwise (fun c c' ↦
        (edgesAdded calls).idxOf (b, c) < (edgesAdded calls).idxOf (b, c')) ∧
      ((ofCalls calls).toFlowGraph.preds b).Pairwise fun c c' ↦
        (edgesAdded calls).idxOf (c, b) < (edgesAdded calls).idxOf (c', b) := by
  have hpairwise := pairwise_eraseDups (edgesAdded calls)
  rw [← edges_ofCalls] at hpairwise
  rcases Nat.lt_or_ge b (ofCalls calls).blocks.size with hb | hb
  · obtain ⟨hsuccs, hpreds⟩ := (ofCalls calls).neighbours_toFlowGraph hb
    rw [hsuccs, hpreds, Digraph.targetsOf, Digraph.sourcesOf, List.pairwise_map, List.pairwise_map]
    constructor
    · refine (hpairwise.filter _).imp_of_mem fun {e e'} he he' hlt ↦ ?_
      obtain rfl : e.1 = b := beq_iff_eq.mp (List.mem_filter.mp he).2
      have hsame : e'.1 = e.1 := beq_iff_eq.mp (List.mem_filter.mp he').2
      have heq : (e.1, e'.2) = e' := Prod.ext hsame.symm rfl
      rwa [heq]
    · refine (hpairwise.filter _).imp_of_mem fun {e e'} he he' hlt ↦ ?_
      obtain rfl : e.2 = b := beq_iff_eq.mp (List.mem_filter.mp he).2
      have hsame : e'.2 = e.2 := beq_iff_eq.mp (List.mem_filter.mp he').2
      have heq : (e'.1, e.2) = e' := Prod.ext rfl hsame.symm
      rwa [heq]
  · rw [← blockCount_toFlowGraph] at hb
    obtain ⟨hsuccs, hpreds⟩ := FlowGraph.neighbours_of_le hb
    rw [hsuccs, hpreds]
    exact ⟨List.Pairwise.nil, List.Pairwise.nil⟩

theorem nodup_neighbours (calls : List Call) (b : Nat) :
    ((ofCalls calls).toFlowGraph.succs b).Nodup ∧ ((ofCalls calls).toFlowGraph.preds b).Nodup := by
  obtain ⟨hsuccs, hpreds⟩ := pairwise_neighbours calls b
  constructor
  · refine hsuccs.imp fun {c c'} hlt ↦ ?_
    rintro rfl
    exact Nat.lt_irrefl _ hlt
  · refine hpreds.imp fun {c c'} hlt ↦ ?_
    rintro rfl
    exact Nat.lt_irrefl _ hlt

theorem describes_of_build {calls : List Call} {g : FlowGraph}
    (h : (ofCalls calls).build = .ok g) : Describes calls g := by
  have hg := wellFormed_of_build h
  obtain ⟨hstray, hdangling, rfl⟩ := build_eq_ok_iff.mp h
  have htimely := (stray_ofCalls calls).1.mp hstray
  have hedges := edges_lt_of_danglingEdge?_eq_none hdangling
  have hcount : (ofCalls calls).toFlowGraph.blockCount = blocksAdded calls := by
    rw [blockCount_toFlowGraph, size_blocks_ofCalls]
  have hmem := fun e ↦ List.mem_eraseDups (a := e) (l := edgesAdded calls)
  rw [← edges_ofCalls] at hmem
  exact {
    blockCount := hcount
    block_handed_out := fun {before} hprefix ↦ by
      have hle := hprefix.sublist.count_le Call.addBlock
      rw [List.count_append, List.count_singleton_self] at hle
      exact ⟨size_blocks_ofCalls before, hcount ▸ hle⟩
    stmts := map_stmt_of_block? htimely
    ids := hg.map_id_instrs
    locate := hg.locate?_eq_some_iff
    mem_succs := fun {a b} ↦ (mem_succs_toFlowGraph hedges a b).1.trans (hmem (a, b))
    mem_preds := fun {a b} ↦ (mem_succs_toFlowGraph hedges a b).2.trans (hmem (a, b))
    succs_ordered := fun a ↦ (pairwise_neighbours calls a).1
    preds_ordered := fun b ↦ (pairwise_neighbours calls b).2
    nodup_neighbours := nodup_neighbours calls
    mem_exits := FlowGraph.mem_exits
    exits_ascending := FlowGraph.pairwise_exits _
    names_distinct := (ofCalls calls).varNames_nodup
    var_handed_out := fun {before name} hprefix ↦ by
      have hname := getElem?_varNames_of_prefix hprefix
      rw [FlowGraph.varName_of_getElem? hname]
      exact ⟨rfl, FlowGraph.var?_eq_some_of_nodup (ofCalls calls).varNames_nodup hname⟩ }

/-- A draft made by calls builds if and only if every push went to a block that existed at that
moment and all added edges join final blocks. Otherwise the error names the first such push or,
when there is none, the first such edge. The graph is the one that the calls describe. -/
theorem build_follows_calls (calls : List Call) :
    ((∃ g, (ofCalls calls).build = .ok g) ↔
      Timely calls ∧
        ∀ e ∈ edgesAdded calls, e.1 < blocksAdded calls ∧ e.2 < blocksAdded calls) ∧
    (∀ b, (ofCalls calls).build = .error (.unknownBlock b) ↔ FirstStray calls b) ∧
    (∀ s t n, (ofCalls calls).build = .error (.danglingEdge s t n) ↔
      Timely calls ∧ FirstDangling calls (s, t) ∧ n = blocksAdded calls) ∧
    ∀ g, (ofCalls calls).build = .ok g → Describes calls g := by
  obtain ⟨hnone, hsome⟩ := stray_ofCalls calls
  refine ⟨?_, fun b ↦ build_eq_unknownBlock_iff.trans (hsome b), fun s t n ↦ ?_,
    fun g ↦ describes_of_build⟩
  · simp only [build_eq_ok_iff, hnone, danglingEdge?_eq_none_iff]
    exact ⟨fun ⟨g, htimely, hedges, _⟩ ↦ ⟨htimely, hedges⟩,
      fun ⟨htimely, hedges⟩ ↦ ⟨_, htimely, hedges, rfl⟩⟩
  · rw [build_eq_danglingEdge_iff, hnone, danglingEdge?_eq_some_iff, size_blocks_ofCalls]

/-- Edges added before their blocks and twice, a name asked for twice. -/
def interleaved : List Call :=
  [.intern "x", .addBlock, .addEdge 0 1, .push 0 (.branch (.var 0)), .addEdge 0 0, .addBlock,
    .addEdge 0 1, .intern "y", .push 1 .jump, .intern "x", .push 0 .jump]

/-- The interleaved calls, and a push that comes before its block. -/
theorem build_follows_calls_interleaved :
    (∃ g, (ofCalls interleaved).build = .ok g ∧ Describes interleaved g ∧ g.succs 0 = [1, 0]) ∧
      (ofCalls [.push 0 .jump, .addBlock]).build = .error (.unknownBlock 0) ∧
      FirstStray [.push 0 .jump, .addBlock] 0 := by
  have hstray : (ofCalls interleaved).stray = none := by decide +kernel
  have hdangling : (ofCalls interleaved).danglingEdge? = none := by decide +kernel
  have hbuild := build_eq_ok_iff.mpr ⟨hstray, hdangling, rfl⟩
  have hlate : (ofCalls [.push 0 .jump, .addBlock]).build = .error (.unknownBlock 0) := rfl
  refine ⟨⟨_, hbuild, (build_follows_calls interleaved).2.2.2 _ hbuild, by decide +kernel⟩,
    hlate, ?_⟩
  exact ((build_follows_calls _).2.1 0).mp hlate

end Draft

end FlowFacts

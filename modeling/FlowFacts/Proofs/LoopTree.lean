import Mathlib.Data.List.Perm.Subperm
import FlowFacts.Proofs.LoopNesting
import FlowFacts.Proofs.LoopRegions

/-!
The nesting of loops is the tree of inclusion of their bodies. In a laminar family of loops, those
around a node form a chain, and one loop encloses another exactly when it holds the other's header
and is not headed there. So the smallest other loop around a header is the closest one that
encloses the loop, the loops around a header are the loop itself and those around its parent's
header, and climbing from parent to parent counts them. Sizes and depths both follow the chain, in
opposite directions, which is why sorting by depth, taking the smallest and counting agree.
-/

set_option autoImplicit false
set_option relaxedAutoImplicit false

namespace FlowFacts

/-! ### Least elements -/

section Least

variable {α : Type} {less : α → α → Bool}

/-- An order as a comparison: nothing is less both ways, and being no less is transitive. -/
structure Comparison (less : α → α → Bool) : Prop where
  asymm : ∀ {a b : α}, less a b = true → less b a = false
  trans : ∀ {a b c : α}, less a b = false → less b c = false → less a c = false

theorem Comparison.irrefl (h : Comparison less) (a : α) : less a a = false := by
  cases hself : less a a with
  | false => rfl
  | true => exact hself.symm.trans (h.asymm hself)

/-- Going through items with the best one so far ends at a member that no other is less than. -/
theorem Comparison.foldl_least (h : Comparison less) (best : α) (items : List α) :
    items.foldl (fun best x ↦ if less x best then x else best) best ∈ best :: items ∧
      ∀ a ∈ best :: items,
        less a (items.foldl (fun best x ↦ if less x best then x else best) best) = false := by
  induction items generalizing best with
  | nil => simpa using h.irrefl best
  | cons x rest ih =>
    rw [List.foldl_cons]
    cases hless : less x best with
    | true =>
      obtain ⟨hmem, hleast⟩ := ih x
      simp only [if_true]
      refine ⟨List.mem_cons_of_mem best hmem, List.forall_mem_cons.mpr ⟨?_, hleast⟩⟩
      exact h.trans (h.asymm hless) (hleast x List.mem_cons_self)
    | false =>
      obtain ⟨hmem, hleast⟩ := ih best
      obtain ⟨hbest, hrest⟩ := List.forall_mem_cons.mp hleast
      simp only [Bool.false_eq_true, if_false]
      refine ⟨?_, List.forall_mem_cons.mpr ⟨hbest, List.forall_mem_cons.mpr ⟨?_, hrest⟩⟩⟩
      · rcases List.mem_cons.mp hmem with heq | hmem
        · exact List.mem_cons.mpr (Or.inl heq)
        · exact List.mem_cons_of_mem best (List.mem_cons_of_mem x hmem)
      · exact h.trans hless hbest

theorem Comparison.leastBy?_eq_some (h : Comparison less) {items : List α} {least : α}
    (hleast : leastBy? less items = some least) :
    least ∈ items ∧ ∀ a ∈ items, less a least = false := by
  cases items with
  | nil => cases hleast
  | cons first rest =>
    obtain rfl := Option.some.inj hleast
    exact h.foldl_least first rest

theorem leastBy?_eq_none_iff {items : List α} : leastBy? less items = none ↔ items = [] := by
  cases items <;> simp [leastBy?]

/-- A member that is less than all others is the one that is found. -/
theorem Comparison.leastBy?_eq (h : Comparison less) {items : List α} {least : α}
    (hmem : least ∈ items) (hless : ∀ a ∈ items, a ≠ least → less least a = true) :
    leastBy? less items = some least := by
  cases hfound : leastBy? less items with
  | none => exact absurd hmem (leastBy?_eq_none_iff.mp hfound ▸ List.not_mem_nil)
  | some found =>
    obtain ⟨hfoundMem, hfoundLeast⟩ := h.leastBy?_eq_some hfound
    by_contra hne
    have hlt := hless found hfoundMem fun heq ↦ hne (congrArg some heq)
    rw [hfoundLeast least hmem] at hlt
    cases hlt

end Least

/-! ### Laminar loops -/

theorem length_lt_of_subset {α : Type} {items others : List α} {x : α} (hnodup : items.Nodup)
    (hsubset : items ⊆ others) (hx : x ∈ others) (hnot : x ∉ items) :
    items.length < others.length := by
  have hcons : (x :: items) ⊆ others := List.cons_subset.mpr ⟨hx, hsubset⟩
  exact (List.subperm_of_subset (List.nodup_cons.mpr ⟨hnot, hnodup⟩) hcons).length_le

namespace Loop

/-- The body of one loop is a strict part of the body of another. -/
structure Encloses (outer inner : Loop) : Prop where
  mem_of_mem : ∀ b ∈ inner.body, b ∈ outer.body
  exists_notMem : ∃ b ∈ outer.body, b ∉ inner.body

/-- The closest of the loops that enclose a loop. -/
structure Parent (loops : List Loop) (outer l : Loop) : Prop where
  mem : outer ∈ loops
  encloses : outer.Encloses l
  closest : ∀ other ∈ loops, other.Encloses l → other = outer ∨ other.Encloses outer

/-- The number of loops around the header of a loop. -/
def level (loops : List Loop) (l : Loop) : Nat :=
  loops.countP (·.contains l.header)

variable {loops : List Loop} {l inner outer other : Loop}

theorem Encloses.trans (h : other.Encloses outer) (h' : outer.Encloses inner) :
    other.Encloses inner := by
  obtain ⟨b, hb, hnot⟩ := h.exists_notMem
  exact ⟨fun x hx ↦ h.mem_of_mem x (h'.mem_of_mem x hx), b, hb, fun hx ↦ hnot (h'.mem_of_mem b hx)⟩

theorem Encloses.ne (h : outer.Encloses inner) : outer ≠ inner := by
  rintro rfl
  obtain ⟨b, hb, hnot⟩ := h.exists_notMem
  exact hnot hb

theorem Encloses.size_lt (h : outer.Encloses inner) : inner.size < outer.size := by
  obtain ⟨b, hb, hnot⟩ := h.exists_notMem
  have hnodup : inner.body.toList.Nodup := inner.body.pairwise_toList.imp Nat.ne_of_lt
  rw [inner.size_eq, outer.size_eq, BitSet.count_eq_length, BitSet.count_eq_length]
  refine length_lt_of_subset hnodup (fun x hx ↦ ?_) (BitSet.mem_toList.mpr hb)
    fun hx ↦ hnot (BitSet.mem_toList.mp hx)
  exact BitSet.mem_toList.mpr (h.mem_of_mem x (BitSet.mem_toList.mp hx))

/-- Loops with different headers, of which two that share a node are nested, with the outer header
outside the inner body. -/
structure Laminar (loops : List Loop) : Prop where
  pairwise_header : (loops.map header).Pairwise (· < ·)
  header_mem : ∀ {l : Loop}, l ∈ loops → l.header ∈ l.body
  nested : ∀ {l l' : Loop}, l ∈ loops → l' ∈ loops → l ≠ l' → ∀ {v : Nat}, v ∈ l.body →
    v ∈ l'.body → l.Encloses l' ∨ l'.Encloses l
  header_notMem : ∀ {outer inner : Loop}, outer ∈ loops → inner ∈ loops → outer.Encloses inner →
    outer.header ∉ inner.body

namespace Laminar

theorem nodup (h : Laminar loops) : loops.Nodup :=
  List.Nodup.of_map header (h.pairwise_header.imp Nat.ne_of_lt)

theorem eq_of_header_eq (h : Laminar loops) (hl : l ∈ loops) (hother : other ∈ loops)
    (heq : l.header = other.header) : l = other :=
  List.inj_on_of_nodup_map (h.pairwise_header.imp Nat.ne_of_lt) hl hother heq

/-- The loops that enclose a loop are the others that hold its header. -/
theorem encloses_iff (h : Laminar loops) (hl : l ∈ loops) (houter : outer ∈ loops) :
    outer.Encloses l ↔ outer ≠ l ∧ l.header ∈ outer.body := by
  constructor
  · exact fun hencloses ↦ ⟨hencloses.ne, hencloses.mem_of_mem _ (h.header_mem hl)⟩
  · rintro ⟨hne, hmem⟩
    rcases h.nested houter hl hne hmem (h.header_mem hl) with hencloses | hencloses
    · exact hencloses
    · exact absurd hmem (h.header_notMem hl houter hencloses)

/-- A loop holds the header of another if it is that loop or encloses it. -/
theorem header_mem_iff (h : Laminar loops) (hl : l ∈ loops) (houter : outer ∈ loops) :
    l.header ∈ outer.body ↔ outer = l ∨ outer.Encloses l := by
  rw [h.encloses_iff hl houter]
  by_cases heq : outer = l
  · simp [heq, h.header_mem hl]
  · simp [heq]

/-! ### Levels -/

theorem nodup_around (h : Laminar loops) (v : Nat) : (loops.filter (·.contains v)).Nodup :=
  h.nodup.filter _

theorem level_lt (h : Laminar loops) (hl : l ∈ loops) (houter : outer ∈ loops)
    (hencloses : outer.Encloses l) : level loops outer < level loops l := by
  rw [level, level, List.countP_eq_length_filter, List.countP_eq_length_filter]
  have hmem : ∀ {x m}, x ∈ loops.filter (·.contains m) ↔ x ∈ loops ∧ m ∈ x.body :=
    List.mem_filter
  refine length_lt_of_subset (h.nodup_around _) (fun x hx ↦ ?_)
    (hmem.mpr ⟨hl, h.header_mem hl⟩) fun hx ↦ ?_
  · obtain ⟨hxl, hx⟩ := hmem.mp hx
    refine hmem.mpr ⟨hxl, ?_⟩
    rcases (h.header_mem_iff houter hxl).mp hx with rfl | hx
    · exact hencloses.mem_of_mem _ (h.header_mem hl)
    · exact (hx.trans hencloses).mem_of_mem _ (h.header_mem hl)
  · exact h.header_notMem houter hl hencloses (hmem.mp hx).2

/-- The loops around a header are the loop itself and those around its parent's header. -/
theorem level_of_parent (h : Laminar loops) (hl : l ∈ loops) (hparent : Parent loops outer l) :
    level loops l = level loops outer + 1 := by
  have hnot : l ∉ loops.filter (·.contains outer.header) := fun hmem ↦
    h.header_notMem hparent.mem hl hparent.encloses (List.mem_filter.mp hmem).2
  have hperm : (loops.filter (·.contains l.header)).Perm
      (l :: loops.filter (·.contains outer.header)) := by
    refine (List.perm_ext_iff_of_nodup (h.nodup_around _)
      (List.nodup_cons.mpr ⟨hnot, h.nodup_around _⟩)).mpr fun x ↦ ?_
    rw [List.mem_cons, List.mem_filter, List.mem_filter]
    constructor
    · rintro ⟨hx, hmem⟩
      refine ((h.header_mem_iff hl hx).mp hmem).imp_right fun hencloses ↦ ⟨hx, ?_⟩
      exact (h.header_mem_iff hparent.mem hx).mpr (hparent.closest x hx hencloses)
    · rintro (rfl | ⟨hx, hmem⟩)
      · exact ⟨hl, h.header_mem hl⟩
      · refine ⟨hx, (h.header_mem_iff hl hx).mpr (Or.inr ?_)⟩
        rcases (h.header_mem_iff hparent.mem hx).mp hmem with rfl | hencloses
        · exact hparent.encloses
        · exact hencloses.trans hparent.encloses
  rw [level, level, List.countP_eq_length_filter, List.countP_eq_length_filter, hperm.length_eq,
    List.length_cons]

theorem level_of_outermost (h : Laminar loops) (hl : l ∈ loops)
    (houtermost : ∀ outer ∈ loops, ¬outer.Encloses l) : level loops l = 1 := by
  have hperm : (loops.filter (·.contains l.header)).Perm [l] := by
    refine (List.perm_ext_iff_of_nodup (h.nodup_around _) (List.nodup_singleton l)).mpr fun x ↦ ?_
    rw [List.mem_singleton, List.mem_filter]
    constructor
    · rintro ⟨hx, hmem⟩
      exact ((h.header_mem_iff hl hx).mp hmem).resolve_right (houtermost x hx)
    · rintro rfl
      exact ⟨hl, h.header_mem hl⟩
  rw [level, List.countP_eq_length_filter, hperm.length_eq, List.length_singleton]

end Laminar

end Loop

namespace LoopNest

open FlowFacts.Loop

variable {loops : List Loop} {l outer : Loop}

/-! ### Parents and depths -/

theorem comparison_size : Comparison fun a b : Loop ↦ decide (a.size < b.size) where
  asymm h := by
    rw [decide_eq_true_iff] at h
    exact decide_eq_false (Nat.lt_asymm h)
  trans h h' := by
    rw [decide_eq_false_iff_not] at h h' ⊢
    omega

theorem mem_filter_around (h : Laminar loops) (hl : l ∈ loops) :
    outer ∈ loops.filter (fun outer ↦ outer.header != l.header && outer.contains l.header) ↔
      outer ∈ loops ∧ outer.Encloses l := by
  rw [List.mem_filter, Bool.and_eq_true, bne_iff_ne]
  refine and_congr_right fun houter ↦ ?_
  rw [h.encloses_iff hl houter]
  exact and_congr_left' ⟨fun hne heq ↦ hne (heq ▸ rfl),
    fun hne heq ↦ hne (h.eq_of_header_eq houter hl heq)⟩

/-- The smallest other loop around a header is the parent. -/
theorem closest?_eq_some_iff (h : Laminar loops) (hl : l ∈ loops) {p : Nat} :
    closest? loops l.header = some p ↔ ∃ outer, Parent loops outer l ∧ outer.header = p := by
  rw [closest?, Option.map_eq_some_iff]
  refine exists_congr fun outer ↦ and_congr_left' ⟨fun hleast ↦ ?_, fun hparent ↦ ?_⟩
  · obtain ⟨hmem, hsmallest⟩ := comparison_size.leastBy?_eq_some hleast
    obtain ⟨houter, hencloses⟩ := (mem_filter_around h hl).mp hmem
    refine ⟨houter, hencloses, fun other hother hother' ↦ ?_⟩
    by_cases heq : other = outer
    · exact Or.inl heq
    · refine Or.inr ((h.nested hother houter heq (hother'.mem_of_mem _ (h.header_mem hl))
        (hencloses.mem_of_mem _ (h.header_mem hl))).resolve_right fun hinside ↦ ?_)
      have hnot := hsmallest other ((mem_filter_around h hl).mpr ⟨hother, hother'⟩)
      exact of_decide_eq_false hnot hinside.size_lt
  · refine comparison_size.leastBy?_eq
      ((mem_filter_around h hl).mpr ⟨hparent.mem, hparent.encloses⟩) fun other hother hne ↦ ?_
    obtain ⟨hother, hencloses⟩ := (mem_filter_around h hl).mp hother
    exact decide_eq_true ((hparent.closest other hother hencloses).resolve_left hne).size_lt

theorem closest?_eq_none_iff (h : Laminar loops) (hl : l ∈ loops) :
    closest? loops l.header = none ↔ ∀ outer ∈ loops, ¬outer.Encloses l := by
  rw [closest?, Option.map_eq_none_iff, leastBy?_eq_none_iff, List.eq_nil_iff_forall_not_mem]
  simp only [mem_filter_around h hl, not_and]

/-- A climb that may go as far as there are loops around a header counts those around it. -/
theorem climb_eq_level (h : Laminar loops) {parents : Array (Option Nat)}
    (hparents : ∀ l ∈ loops, (parents[l.header]?).join = closest? loops l.header) {budget : Nat}
    (hl : l ∈ loops) (hbudget : level loops l ≤ budget + 1) :
    climb parents budget l.header + 1 = level loops l := by
  induction budget generalizing l with
  | zero =>
    have hpos : 0 < level loops l := List.countP_pos_iff.mpr ⟨l, hl, h.header_mem hl⟩
    rw [climb]
    omega
  | succ budget ih =>
    rw [climb, hparents l hl]
    cases hclosest : closest? loops l.header with
    | none => exact (h.level_of_outermost hl ((closest?_eq_none_iff h hl).mp hclosest)).symm
    | some p =>
      obtain ⟨outer, hparent, rfl⟩ := (closest?_eq_some_iff h hl).mp hclosest
      have hlevel := h.level_of_parent hl hparent
      rw [hlevel, ← ih hparent.mem (by omega)]

/-! ### The nest of a graph -/

section Nest

variable {g : Digraph}

theorem header_lt (hl : l ∈ (ofDigraph g).loops) : l.header < g.size := by
  have hmem : l.header ∈ (ofDigraph g).loops.map Loop.header := List.mem_map_of_mem hl
  rw [map_header_loops] at hmem
  exact List.mem_range.mp (List.mem_filter.mp hmem).1

theorem getElem?_map_range {α : Type} {f : Nat → α} {n k : Nat} (h : k < n) :
    ((Array.range n).map f)[k]? = some (f k) := by
  simp [h]

theorem parent?_eq_closest? (hl : l ∈ (ofDigraph g).loops) :
    (ofDigraph g).parent? l = closest? (ofDigraph g).loops l.header := by
  have hparents : (ofDigraph g).parents =
      (Array.range g.size).map (closest? (ofDigraph g).loops) := rfl
  rw [parent?, hparents, getElem?_map_range (header_lt hl), Option.join_some]

theorem depth_eq_climb (hl : l ∈ (ofDigraph g).loops) :
    (ofDigraph g).depth l =
      climb (ofDigraph g).parents (ofDigraph g).loops.length l.header + 1 := by
  have hlevels : (ofDigraph g).levels = (Array.range g.size).map
      (climb (ofDigraph g).parents (ofDigraph g).loops.length) := rfl
  rw [depth, hlevels, Array.getD_eq_getD_getElem?, getElem?_map_range (header_lt hl),
    Option.getD_some, Nat.add_comm]

theorem depth_eq_level (h : Laminar (ofDigraph g).loops) (hl : l ∈ (ofDigraph g).loops) :
    (ofDigraph g).depth l = level (ofDigraph g).loops l := by
  have hbudget : level (ofDigraph g).loops l ≤ (ofDigraph g).loops.length := List.countP_le_length
  rw [depth_eq_climb hl]
  exact climb_eq_level h (fun _ ↦ parent?_eq_closest?) hl (Nat.le_succ_of_le hbudget)

end Nest

/-! ### The loops around a node -/

section Containing

variable {nest : LoopNest} {v : Nat}

theorem mem_containing : l ∈ nest.containing v ↔ l ∈ nest.loops ∧ v ∈ l.body :=
  mem_sortBy.trans List.mem_filter

theorem length_containing : (nest.containing v).length = nest.depthAt v := by
  rw [containing, (perm_sortBy _ _).length_eq, depthAt, List.countP_eq_length_filter]

variable (h : Laminar nest.loops) (hdepth : ∀ l ∈ nest.loops, nest.depth l = level nest.loops l)

include h

theorem nodup_containing (v : Nat) : (nest.containing v).Nodup :=
  (perm_sortBy _ _).nodup_iff.mpr (h.nodup_around v)

include hdepth

/-- Depth grows along the chain of loops around a node, so sorting by it puts the outer ones in
front. -/
theorem pairwise_containing (v : Nat) : (nest.containing v).Pairwise Loop.Encloses := by
  have hsorted : (nest.containing v).Pairwise fun a b ↦ nest.depth a ≤ nest.depth b := by
    refine (pairwise_sortBy (fun a b c hab hbc ↦ ?_) (fun a b ↦ ?_) _).imp fun hab ↦ ?_
    · simp only [Bool.or_eq_true, Bool.and_eq_true, decide_eq_true_iff, beq_iff_eq] at hab hbc ⊢
      omega
    · simp only [Bool.or_eq_true, Bool.and_eq_true, decide_eq_true_iff, beq_iff_eq]
      omega
    · simp only [Bool.or_eq_true, Bool.and_eq_true, decide_eq_true_iff, beq_iff_eq] at hab
      omega
  refine (hsorted.and (nodup_containing h v)).imp_of_mem fun {a b} ha hb hab ↦ ?_
  obtain ⟨ha, hva⟩ := mem_containing.mp ha
  obtain ⟨hb, hvb⟩ := mem_containing.mp hb
  refine (h.nested ha hb hab.2 hva hvb).resolve_right fun hencloses ↦ ?_
  have hlt := h.level_lt ha hb hencloses
  rw [← hdepth a ha, ← hdepth b hb] at hlt
  exact Nat.not_lt.mpr hab.1 hlt

omit hdepth h in
theorem comparison_innermost (nest : LoopNest) : Comparison fun a b : Loop ↦
    a.size < b.size || (a.size == b.size && nest.depth b < nest.depth a) where
  asymm h := by
    simp only [Bool.or_eq_true, Bool.or_eq_false_iff, Bool.and_eq_true, Bool.and_eq_false_iff,
      decide_eq_true_iff, decide_eq_false_iff_not, beq_iff_eq, beq_eq_false_iff_ne] at h ⊢
    omega
  trans h h' := by
    simp only [Bool.or_eq_false_iff, Bool.and_eq_false_iff, decide_eq_false_iff_not,
      beq_eq_false_iff_ne] at h h' ⊢
    omega

/-- The last of the loops around a node is inside all others, so it is the smallest. -/
theorem innermost?_eq_getLast? (v : Nat) : nest.innermost? v = (nest.containing v).getLast? := by
  have hmem : ∀ {l}, l ∈ nest.loops.filter (·.contains v) ↔ l ∈ nest.containing v :=
    mem_sortBy.symm
  rw [innermost?]
  cases hlast : (nest.containing v).getLast? with
  | none =>
    rw [leastBy?_eq_none_iff, List.eq_nil_iff_forall_not_mem]
    intro l hl
    rw [hmem, List.getLast?_eq_none_iff.mp hlast] at hl
    cases hl
  | some inner =>
    obtain ⟨front, hfront⟩ := List.getLast?_eq_some_iff.mp hlast
    have hchain := pairwise_containing h hdepth v
    rw [hfront, List.pairwise_append] at hchain
    refine (comparison_innermost nest).leastBy?_eq (hmem.mpr (hfront ▸ by simp)) fun l hl hne ↦ ?_
    rw [hmem, hfront, List.mem_append, List.mem_singleton] at hl
    have hsize := (hchain.2.2 l (hl.resolve_right hne) inner List.mem_cons_self).size_lt
    rw [decide_eq_true hsize, Bool.true_or]

/-- The loops around a node are those around the header of the innermost one. -/
theorem depthAt_eq_depth (hinner : nest.innermost? v = some l) : nest.depthAt v = nest.depth l := by
  rw [innermost?_eq_getLast? h hdepth] at hinner
  obtain ⟨front, hfront⟩ := List.getLast?_eq_some_iff.mp hinner
  have hchain := pairwise_containing h hdepth v
  rw [hfront, List.pairwise_append] at hchain
  have hmem : ∀ {x}, x ∈ nest.loops ∧ v ∈ x.body ↔ x ∈ front ∨ x = l := by
    intro x
    rw [← mem_containing, hfront, List.mem_append, List.mem_singleton]
  obtain ⟨hl, hv⟩ := hmem.mpr (Or.inr rfl)
  rw [hdepth l hl, level, depthAt]
  refine List.countP_congr fun x hx ↦ Iff.trans ?_ (h.header_mem_iff hl hx).symm
  constructor
  · intro hxv
    rcases hmem.mp ⟨hx, hxv⟩ with hfront | heq
    · exact Or.inr (hchain.2.2 x hfront l List.mem_cons_self)
    · exact Or.inl heq
  · rintro (rfl | hencloses)
    · exact hv
    · exact hencloses.mem_of_mem v hv

end Containing

/-! ### Built graphs -/

theorem laminar_loops {g : FlowGraph} (hg : g.WellFormed) : Laminar g.loops.loops := by
  have hpairwise : (g.loops.loops.map Loop.header).Pairwise (· < ·) := pairwise_header g.toDigraph
  have hlaminar : ∀ {l l'}, l ∈ g.loops.loops → l' ∈ g.loops.loops → l ≠ l' →
      (∀ b ∈ l.body, b ∉ l'.body) ∨ l.Inside l' g.loops.dominators ∨
        l'.Inside l g.loops.dominators := by
    intro l l' hl hl' hne
    have hlinked := linked_of_mem_loops hg hl
    exact (natural_of_mem hlinked hl).disjoint_or_inside hlinked (natural_of_mem hlinked hl')
      fun heq ↦ hne (List.inj_on_of_nodup_map (hpairwise.imp Nat.ne_of_lt) hl hl' heq)
  have hencloses : ∀ {l l' : Loop}, l.Inside l' g.loops.dominators → l'.Encloses l := fun h ↦
    ⟨h.mem_of_mem, _, h.header_mem, h.header_notMem⟩
  have hheader : ∀ {l}, l ∈ g.loops.loops → l.header ∈ l.body := fun hl ↦
    (natural_of_mem (linked_of_mem_loops hg hl) hl).header_mem
  refine ⟨hpairwise, hheader, fun hl hl' hne v hv hv' ↦ ?_, fun {outer inner} ho hi h ↦ ?_⟩
  · rcases hlaminar hl hl' hne with hdisjoint | hinside | hinside
    · exact absurd hv' (hdisjoint v hv)
    · exact Or.inr (hencloses hinside)
    · exact Or.inl (hencloses hinside)
  · rcases hlaminar ho hi h.ne with hdisjoint | hinside | hinside
    · exact absurd (hheader hi) (hdisjoint _ (h.mem_of_mem _ (hheader hi)))
    · obtain ⟨b, hb, hnot⟩ := h.exists_notMem
      exact absurd (hinside.mem_of_mem b hb) hnot
    · exact hinside.header_notMem

theorem loop?_header {nest : LoopNest} (h : Laminar nest.loops) (hl : l ∈ nest.loops) :
    nest.loop? l.header = some l := by
  rw [loop?]
  cases hfound : nest.loops.find? (·.header == l.header) with
  | none => exact absurd (List.find?_eq_none.mp hfound l hl) (by simp)
  | some found =>
    have heq := List.find?_some hfound
    rw [h.eq_of_header_eq (List.mem_of_find?_eq_some hfound) hl (beq_iff_eq.mp heq)]

/-! ### Children -/

/-- A loop is added to the list of its parent and to no other. -/
theorem getD_addChild {parents : Array (Option Nat)} {children : Array (List Nat)} {p : Nat}
    (hp : p < children.size) (hheader : ∃ outer ∈ loops, outer.header = p) (inner : Loop) :
    (addChild loops parents children inner).getD p [] = children.getD p [] ++
      if (parents[inner.header]?).join == some p then [inner.header] else [] := by
  have hany : loops.any (·.header == p) = true := by simpa using hheader
  have hmodify : ∀ parent, (children.modify parent (· ++ [inner.header])).getD p [] =
      if parent = p then children.getD p [] ++ [inner.header] else children.getD p [] := by
    intro parent
    rw [Array.getD_eq_getD_getElem?, Array.getD_eq_getD_getElem?, Array.getElem?_modify,
      Array.getElem?_eq_getElem hp]
    split_ifs <;> rfl
  rw [addChild]
  cases (parents[inner.header]?).join with
  | none => exact (List.append_nil _).symm
  | some parent =>
    by_cases heq : parent = p
    · subst heq
      rw [beq_self_eq_true, if_pos rfl]
      dsimp only
      rw [if_pos hany, hmodify, if_pos rfl]
    · rw [beq_false_of_ne fun h ↦ heq (Option.some.inj h), if_neg Bool.false_ne_true,
        List.append_nil]
      dsimp only
      by_cases howner : loops.any (·.header == parent) = true
      · rw [if_pos howner, hmodify, if_neg heq]
      · rw [if_neg howner]

theorem size_addChild (loops : List Loop) (parents : Array (Option Nat))
    (children : Array (List Nat)) (inner : Loop) :
    (addChild loops parents children inner).size = children.size := by
  rw [addChild]
  split
  · rfl
  · split_ifs
    · exact Array.size_modify
    · rfl

theorem getD_foldl_addChild {parents : Array (Option Nat)} {p : Nat}
    (hheader : ∃ outer ∈ loops, outer.header = p) (inners : List Loop)
    {children : Array (List Nat)} (hp : p < children.size) :
    (inners.foldl (addChild loops parents) children).getD p [] = children.getD p [] ++
      (inners.filter fun inner ↦ (parents[inner.header]?).join == some p).map Loop.header := by
  induction inners generalizing children with
  | nil => simp
  | cons inner rest ih =>
    rw [List.foldl_cons, ih (size_addChild loops parents children inner ▸ hp),
      getD_addChild hp hheader, List.filter_cons, List.append_assoc]
    split_ifs <;> rfl

/-- The stored children of a loop are the loops that have it for parent. -/
theorem children_eq_filter {g : Digraph} (h : Laminar (ofDigraph g).loops)
    (hl : l ∈ (ofDigraph g).loops) :
    (ofDigraph g).children l =
      (ofDigraph g).loops.filter fun inner ↦ (ofDigraph g).parent? inner == some l.header := by
  have hstored : (ofDigraph g).childHeaders.getD l.header [] =
      ((ofDigraph g).loops.filter fun inner ↦
        (ofDigraph g).parent? inner == some l.header).map Loop.header := by
    have hp : l.header < (Array.replicate g.size ([] : List Nat)).size := by
      rw [Array.size_replicate]
      exact header_lt hl
    have hfold : (ofDigraph g).childHeaders = (ofDigraph g).loops.foldl
        (addChild (ofDigraph g).loops (ofDigraph g).parents) (Array.replicate g.size []) := rfl
    rw [hfold, getD_foldl_addChild ⟨l, hl, rfl⟩ _ hp]
    simp [Array.getD_eq_getD_getElem?, header_lt hl, parent?]
  rw [children, hstored, List.filterMap_map]
  refine (List.filterMap_congr fun inner hinner ↦ ?_).trans List.filterMap_some
  exact loop?_header h (List.mem_filter.mp hinner).1

/-! ### The tree -/

/-- A body lies in a larger one exactly if it has a parent. -/
theorem outermost_eq_filter {g : Digraph} (h : Laminar (ofDigraph g).loops) :
    (ofDigraph g).outermost = (ofDigraph g).loops.filter (ofDigraph g).isOutermost := by
  refine List.filter_congr fun l hl ↦ ?_
  have hlarger : ∀ {outer}, outer ∈ (ofDigraph g).loops →
      (outer.Encloses l ↔ l.size < outer.size ∧ ∀ b ∈ l.body, b ∈ outer.body) := by
    intro outer houter
    constructor
    · exact fun hencloses ↦ ⟨hencloses.size_lt, hencloses.mem_of_mem⟩
    · rintro ⟨hsize, hsubset⟩
      refine (h.encloses_iff hl houter).mpr ⟨?_, hsubset _ (h.header_mem hl)⟩
      rintro rfl
      exact Nat.lt_irrefl _ hsize
  rw [Bool.eq_iff_iff, isOutermost, parent?_eq_closest? hl, Option.isNone_iff_eq_none,
    closest?_eq_none_iff h hl, Bool.not_eq_true', List.any_eq_false]
  refine forall₂_congr fun outer houter ↦ not_congr ?_
  rw [Bool.and_eq_true, decide_eq_true_iff, BitSet.isSubset_iff, hlarger houter]

/-- The data and the queries of a nest describe the inclusion of the bodies. -/
structure InclusionTree (nest : LoopNest) : Prop where
  parent?_eq_some_iff : ∀ l ∈ nest.loops, ∀ p,
    nest.parent? l = some p ↔ ∃ outer, Parent nest.loops outer l ∧ outer.header = p
  parent?_eq_none_iff : ∀ l ∈ nest.loops,
    nest.parent? l = none ↔ ∀ outer ∈ nest.loops, ¬outer.Encloses l
  mem_children_iff : ∀ l ∈ nest.loops, ∀ inner,
    inner ∈ nest.children l ↔ inner ∈ nest.loops ∧ nest.parent? inner = some l.header
  pairwise_children : ∀ l ∈ nest.loops, ((nest.children l).map Loop.header).Pairwise (· < ·)
  childrenOf_header : ∀ l ∈ nest.loops, nest.childrenOf l.header = nest.children l
  depth_of_parent : ∀ l ∈ nest.loops, ∀ outer ∈ nest.loops, nest.parent? l = some outer.header →
    nest.depth l = 1 + nest.depth outer
  depth_of_outermost : ∀ l ∈ nest.loops, nest.parent? l = none → nest.depth l = 1
  depth_eq_count : ∀ l ∈ nest.loops, nest.depth l = nest.loops.countP (·.contains l.header)
  depth_le : ∀ l ∈ nest.loops, nest.depth l ≤ nest.loops.length
  /-- The climb to the root ends by itself, whatever it is allowed beyond the number of loops. -/
  climb_eq : ∀ l ∈ nest.loops, ∀ budget, nest.loops.length ≤ budget →
    1 + climb nest.parents budget l.header = nest.depth l
  mem_containing_iff : ∀ v l, l ∈ nest.containing v ↔ l ∈ nest.loops ∧ v ∈ l.body
  pairwise_containing : ∀ v, (nest.containing v).Pairwise Loop.Encloses
  innermost?_eq : ∀ v, nest.innermost? v = (nest.containing v).getLast?
  depthAt_eq_length : ∀ v, nest.depthAt v = (nest.containing v).length
  depthAt_eq_depth : ∀ v l, nest.innermost? v = some l → nest.depthAt v = nest.depth l
  outermost_eq : nest.outermost = nest.loops.filter nest.isOutermost

/-- The loops of a built graph are nested as their bodies include one another, and every query about
the nesting reads the same tree. -/
theorem nesting_inclusion_tree {draft : Draft} {g : FlowGraph} (hbuild : draft.build = .ok g) :
    g.loops.InclusionTree := by
  rw [FlowGraph.loops]
  have h : Laminar (ofDigraph g.toDigraph).loops := laminar_loops (draft.wellFormed_of_build hbuild)
  have hdepth := fun l hl ↦ depth_eq_level (l := l) h hl
  have hlevel : ∀ l, level (ofDigraph g.toDigraph).loops l ≤ (ofDigraph g.toDigraph).loops.length :=
    fun l ↦ List.countP_le_length
  exact {
    parent?_eq_some_iff := fun l hl p ↦ by rw [parent?_eq_closest? hl, closest?_eq_some_iff h hl]
    parent?_eq_none_iff := fun l hl ↦ by rw [parent?_eq_closest? hl, closest?_eq_none_iff h hl]
    mem_children_iff := fun l hl inner ↦ by
      rw [children_eq_filter h hl, List.mem_filter, beq_iff_eq]
    pairwise_children := fun l hl ↦ by
      rw [children_eq_filter h hl]
      exact h.pairwise_header.sublist (List.filter_sublist.map Loop.header)
    childrenOf_header := fun l hl ↦ by rw [childrenOf, loop?_header h hl]
    depth_of_parent := fun l hl outer houter hparent ↦ by
      rw [parent?_eq_closest? hl, closest?_eq_some_iff h hl] at hparent
      obtain ⟨closest, hparent, hheader⟩ := hparent
      obtain rfl := h.eq_of_header_eq hparent.mem houter hheader
      rw [hdepth l hl, hdepth closest houter, h.level_of_parent hl hparent, Nat.add_comm]
    depth_of_outermost := fun l hl hnone ↦ by
      rw [parent?_eq_closest? hl, closest?_eq_none_iff h hl] at hnone
      rw [hdepth l hl, h.level_of_outermost hl hnone]
    depth_eq_count := hdepth
    depth_le := fun l hl ↦ hdepth l hl ▸ hlevel l
    climb_eq := fun l hl budget hbudget ↦ by
      rw [hdepth l hl, Nat.add_comm]
      exact climb_eq_level h (fun _ ↦ parent?_eq_closest?) hl
        (Nat.le_succ_of_le ((hlevel l).trans hbudget))
    mem_containing_iff := fun v l ↦ mem_containing
    pairwise_containing := LoopNest.pairwise_containing h hdepth
    innermost?_eq := innermost?_eq_getLast? h hdepth
    depthAt_eq_length := fun v ↦ length_containing.symm
    depthAt_eq_depth := fun v l ↦ LoopNest.depthAt_eq_depth h hdepth
    outermost_eq := outermost_eq_filter h }

/-- A loop around two others, and one beside it. -/
def loopForest : Draft where
  blocks := #[#[], #[], #[], #[], #[], #[]]
  edges := #[(0, 1), (1, 2), (2, 3), (3, 2), (3, 4), (4, 4), (4, 1), (1, 5), (5, 5)]
  varNames := #[]
  stray := none
  edges_nodup := by decide
  varNames_nodup := List.nodup_nil

theorem nesting_inclusion_tree_loopForest :
    let nest := loopForest.toFlowGraph.loops
    nest.InclusionTree ∧
      (nest.loops.map fun l ↦ (l.header, l.body.toList, nest.parent? l, nest.depth l)) =
        [(1, [1, 2, 3, 4], none, 1), (2, [2, 3], some 1, 2), (4, [4], some 1, 2),
          (5, [5], none, 1)] ∧
      (nest.loops.map fun l ↦ (nest.children l).map Loop.header) = [[2, 4], [], [], []] ∧
      (nest.innermost? 4).map Loop.header = some 4 ∧ nest.depthAt 4 = 2 ∧
      nest.outermost.map Loop.header = [1, 5] := by
  intro nest
  have hbuild : loopForest.build = .ok loopForest.toFlowGraph := rfl
  refine ⟨nesting_inclusion_tree hbuild, ?_, ?_, ?_, ?_, ?_⟩
  all_goals decide +kernel

end LoopNest

end FlowFacts

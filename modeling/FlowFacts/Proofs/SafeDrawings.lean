import FlowFacts.FlowGraph.Dot
import FlowFacts.Proofs.NaturalLoops

/-!
No text can break a drawing. What a label holds is made of plain characters and of pairs of a
backslash and the character it escapes; such pieces can be put together, contain no line feed, and
leave every quote in them behind an odd run of backslashes. So each label ends at the quote that
closes it, and each block and each edge has a line of its own. Escaping loses carriage returns and
nothing else. The dashed edges are those from a reachable block to one that dominates it.
-/

set_option autoImplicit false
set_option relaxedAutoImplicit false

namespace FlowFacts

namespace Dot

/-! ### Escaping and back -/

theorem escapeChar_cases (c : Char) :
    (c ≠ 'n' ∧ c ≠ '\n' ∧ c ≠ '\r' ∧ escapeChar c = ['\\', c]) ∨
      (c = '\n' ∧ escapeChar c = ['\\', 'n']) ∨
      (c = '\r' ∧ escapeChar c = []) ∨
      (c ≠ '\\' ∧ c ≠ '"' ∧ c ≠ '\n' ∧ c ≠ '\r' ∧ escapeChar c = [c]) := by
  unfold escapeChar
  split <;> simp_all

def unescapeChars : List Char → List Char
  | '\\' :: 'n' :: rest => '\n' :: unescapeChars rest
  | '\\' :: c :: rest => c :: unescapeChars rest
  | c :: rest => c :: unescapeChars rest
  | [] => []

/-- Undoes escapes: a backslash and the letter n stand for a line feed, and a backslash and another
character for that character. -/
def unescape (text : String) : String :=
  String.ofList (unescapeChars text.toList)

theorem unescapeChars_cons {c : Char} (hc : c ≠ '\\') (rest : List Char) :
    unescapeChars (c :: rest) = c :: unescapeChars rest := by
  rw [unescapeChars] <;> simp [hc]

theorem unescapeChars_pair {c : Char} (hc : c ≠ 'n') (rest : List Char) :
    unescapeChars ('\\' :: c :: rest) = c :: unescapeChars rest := by
  rw [unescapeChars]
  exact hc

theorem unescapeChars_flatMap_escapeChar (text : List Char) :
    unescapeChars (text.flatMap escapeChar) = text.filter (· ≠ '\r') := by
  induction text with
  | nil => rfl
  | cons c rest ih =>
    rw [List.flatMap_cons, List.filter_cons]
    rcases escapeChar_cases c with ⟨hletter, -, hreturn, hc⟩ | ⟨rfl, hc⟩ | ⟨rfl, hc⟩ |
      ⟨hslash, -, -, hreturn, hc⟩
    · rw [hc, if_pos (by simpa using hreturn), ← ih]
      exact unescapeChars_pair hletter _
    · rw [hc, if_pos (by decide), ← ih]
      rfl
    · rw [hc, if_neg (by decide), ← ih]
      rfl
    · rw [hc, if_pos (by simpa using hreturn), ← ih]
      exact unescapeChars_cons hslash _

theorem unescape_escape (text : String) :
    unescape (escape text) = String.ofList (text.toList.filter (· ≠ '\r')) := by
  rw [unescape, escape, String.toList_ofList, unescapeChars_flatMap_escapeChar]

theorem unescape_escape_of_notMem {text : String} (h : '\r' ∉ text.toList) :
    unescape (escape text) = text := by
  have hall : text.toList.filter (· ≠ '\r') = text.toList :=
    List.filter_eq_self.mpr fun c hc ↦ by
      rw [decide_eq_true_iff]
      rintro rfl
      exact h hc
  rw [unescape_escape, hall, String.ofList_toList]

theorem escape_inj {s t : String} (hs : '\r' ∉ s.toList) (ht : '\r' ∉ t.toList)
    (h : escape s = escape t) : s = t := by
  rw [← unescape_escape_of_notMem hs, h, unescape_escape_of_notMem ht]

/-! ### What a label can hold -/

/-- Plain characters, and pairs of a backslash and a character. -/
inductive Escaped : List Char → Prop
  | nil : Escaped []
  | plain {c : Char} {rest : List Char} (hslash : c ≠ '\\') (hquote : c ≠ '"') (hline : c ≠ '\n')
      (h : Escaped rest) : Escaped (c :: rest)
  | pair {c : Char} {rest : List Char} (hline : c ≠ '\n') (h : Escaped rest) :
      Escaped ('\\' :: c :: rest)

theorem Escaped.append {s t : List Char} (hs : Escaped s) (ht : Escaped t) : Escaped (s ++ t) := by
  induction hs with
  | nil => exact ht
  | plain hslash hquote hline _ ih => exact .plain hslash hquote hline ih
  | pair hline _ ih => exact .pair hline ih

theorem Escaped.newline_notMem {s : List Char} (hs : Escaped s) : '\n' ∉ s := by
  induction hs with
  | nil => exact List.not_mem_nil
  | plain _ _ hline _ ih => simp [hline.symm, ih]
  | pair hline _ ih => simp [hline.symm, ih]

theorem escaped_flatMap_escapeChar (text : List Char) : Escaped (text.flatMap escapeChar) := by
  induction text with
  | nil => exact .nil
  | cons c rest ih =>
    rw [List.flatMap_cons]
    rcases escapeChar_cases c with ⟨-, hline, -, hc⟩ | ⟨-, hc⟩ | ⟨-, hc⟩ |
      ⟨hslash, hquote, hline, -, hc⟩
    · rw [hc]
      exact .pair hline ih
    · rw [hc]
      exact .pair (by decide) ih
    · rw [hc]
      exact ih
    · rw [hc]
      exact .plain hslash hquote hline ih

theorem escaped_escape (text : String) : Escaped (escape text).toList := by
  rw [escape, String.toList_ofList]
  exact escaped_flatMap_escapeChar text.toList

def isPlain (c : Char) : Bool :=
  c != '\\' && c != '"' && c != '\n'

theorem escaped_of_plain {s : List Char} (h : s.all isPlain = true) : Escaped s := by
  induction s with
  | nil => exact .nil
  | cons c rest ih =>
    rw [List.all_cons, Bool.and_eq_true] at h
    obtain ⟨⟨hslash, hquote⟩, hline⟩ : (c ≠ '\\' ∧ c ≠ '"') ∧ c ≠ '\n' := by
      simpa [isPlain] using h.1
    exact .plain hslash hquote hline (ih h.2)

/-! ### The quote that closes a label -/

/-- The length of the run of backslashes at the end of a text. -/
def trailingBackslashes (text : List Char) : Nat :=
  (text.reverse.takeWhile (· == '\\')).length

theorem trailingBackslashes_concat (text : List Char) (c : Char) :
    trailingBackslashes (text ++ [c]) = if c = '\\' then trailingBackslashes text + 1 else 0 := by
  rw [trailingBackslashes, List.reverse_append, List.reverse_singleton, List.singleton_append,
    List.takeWhile_cons]
  by_cases hc : c = '\\' <;> simp [hc, trailingBackslashes]

/-- Escaped text ends with an even run of backslashes, and each quote in it stands behind an odd
run, if the text in front of it ends with an even run. -/
theorem Escaped.trailingBackslashes_mod_two {s : List Char} (hs : Escaped s) (before : List Char)
    (hbefore : trailingBackslashes before % 2 = 0) :
    trailingBackslashes (before ++ s) % 2 = 0 ∧
      ∀ i, s[i]? = some '"' → trailingBackslashes (before ++ s.take i) % 2 = 1 := by
  -- What has been passed goes to `before`: a run may have begun there, but only in whole pairs.
  induction hs generalizing before with
  | nil => simpa using hbefore
  | @plain c rest hslash hquote _ _ ih =>
    have hnext : trailingBackslashes (before ++ [c]) % 2 = 0 := by
      rw [trailingBackslashes_concat, if_neg hslash]
    obtain ⟨heven, hodd⟩ := ih _ hnext
    rw [List.append_assoc, List.singleton_append] at heven
    refine ⟨heven, fun i hi ↦ ?_⟩
    cases i with
    | zero => exact absurd (Option.some.inj hi) hquote
    | succ i => simpa using hodd i hi
  | @pair c rest _ _ ih =>
    have hslash : trailingBackslashes (before ++ ['\\']) % 2 = 1 := by
      rw [trailingBackslashes_concat, if_pos rfl]
      omega
    have hnext : trailingBackslashes (before ++ ['\\'] ++ [c]) % 2 = 0 := by
      rw [trailingBackslashes_concat]
      split <;> omega
    obtain ⟨heven, hodd⟩ := ih _ hnext
    rw [List.append_assoc, List.append_assoc] at heven
    refine ⟨heven, fun i hi ↦ ?_⟩
    rcases i with _ | _ | i
    · exact absurd (Option.some.inj hi) (by decide)
    · exact hslash
    · simpa using hodd i hi

/-- The place of the first quote that no odd run of backslashes precedes. -/
def closingQuote? (text : List Char) : Option Nat :=
  (List.range text.length).find? fun i ↦
    text[i]? == some '"' && trailingBackslashes (text.take i) % 2 == 0

theorem closingQuote?_of_escaped {label : List Char} (h : Escaped label) (ending : List Char) :
    closingQuote? (label ++ '"' :: ending) = some label.length := by
  obtain ⟨heven, hodd⟩ := h.trailingBackslashes_mod_two [] rfl
  rw [List.nil_append] at heven
  refine List.find?_range_eq_some.mpr ⟨?_, by simp, fun i hi ↦ ?_⟩
  · simp [heven]
  · rw [List.getElem?_append_left hi, List.take_append_of_le_length (Nat.le_of_lt hi)]
    by_cases hquote : label[i]? = some '"'
    · have hrun := hodd i hquote
      rw [List.nil_append] at hrun
      simp [hrun]
    · simp [hquote]

/-- The line holds a quoted label between an opening and an ending, and the label ends at its
closing quote. -/
structure Quotes (line opening label ending : String) : Prop where
  line_eq : line = opening ++ "\"" ++ label ++ "\"" ++ ending
  closes : closingQuote? (label ++ "\"" ++ ending).toList = some label.length

theorem quotes_of_escaped {label : String} (h : Escaped label.toList) (opening ending : String) :
    Quotes (opening ++ "\"" ++ label ++ "\"" ++ ending) opening label ending := by
  refine ⟨rfl, ?_⟩
  rw [String.toList_append, String.toList_append, List.append_assoc, ← String.length_toList]
  exact closingQuote?_of_escaped h ending.toList

/-! ### Lines -/

/-- What stands between the line feeds of a text. -/
def lines (text : String) : List String :=
  (text.toList.splitOn '\n').map String.ofList

theorem toList_join_lines (items : List String) :
    (String.join (items.map (· ++ "\n"))).toList =
      ['\n'].intercalate (items.map String.toList ++ [[]]) := by
  rw [String.toList_join]
  induction items with
  | nil => rfl
  | cons item rest ih =>
    rw [List.map_cons, List.flatMap_cons, ih, List.map_cons, List.cons_append,
      List.intercalate_cons_of_ne_nil (by simp), String.toList_append]
    rfl

theorem lines_join {items : List String} (h : ∀ item ∈ items, '\n' ∉ item.toList) :
    lines (String.join (items.map (· ++ "\n"))) = items ++ [""] := by
  have hnone : ∀ part ∈ items.map String.toList ++ [[]], '\n' ∉ part := by
    simpa [or_imp, forall_and] using h
  rw [lines, toList_join_lines, List.splitOn_intercalate _ hnone (by simp), List.map_append,
    List.map_map]
  refine congrArg (· ++ _) ((List.map_congr_left fun item _ ↦ ?_).trans (List.map_id items))
  exact String.ofList_toList

theorem count_newline_join {items : List String} (h : ∀ item ∈ items, '\n' ∉ item.toList) :
    (String.join (items.map (· ++ "\n"))).toList.count '\n' = items.length := by
  rw [String.toList_join]
  induction items with
  | nil => rfl
  | cons item rest ih =>
    obtain ⟨hitem, hrest⟩ := List.forall_mem_cons.mp h
    rw [List.map_cons, List.flatMap_cons, List.count_append, ih hrest, String.toList_append,
      List.count_append, List.count_eq_zero.mpr hitem, List.length_cons]
    exact Nat.add_comm _ _

end Dot

namespace FlowGraph

open Dot

variable {g : FlowGraph} {title : Option String}

/-! ### The parts of a drawing -/

theorem escaped_toString (n : Nat) : Escaped (toString n).toList := by
  refine escaped_of_plain (List.all_eq_true.mpr fun c hc ↦ ?_)
  rw [Nat.toString_eq_repr, Nat.toList_repr] at hc
  have hdigit := Nat.isDigit_of_mem_toDigits (by decide) (by decide) hc
  simp only [isPlain, Bool.and_eq_true, bne_iff_ne]
  refine ⟨⟨?_, ?_⟩, ?_⟩ <;> rintro rfl <;> exact absurd hdigit (by decide)

theorem escaped_blockLabel (b : Nat) : Escaped (blockLabel b).toList := by
  rw [blockLabel, String.toList_append]
  exact (escaped_of_plain rfl).append (escaped_toString b)

theorem escaped_instrLabel (i : Nat) : Escaped (instrLabel i).toList := by
  rw [instrLabel, String.toList_append]
  exact (escaped_of_plain rfl).append (escaped_toString i)

theorem escaped_dotLabel (g : FlowGraph) (b : Nat) (block : Block) :
    Escaped (g.dotLabel b block).toList := by
  have hbreak : Escaped "\\l".toList := .pair (by decide) .nil
  simp only [dotLabel, String.toList_append, String.toList_join]
  refine ((((escaped_blockLabel b).append ?_).append ?_).append hbreak).append ?_
  · split <;> exact escaped_of_plain rfl
  · split <;> exact escaped_of_plain rfl
  · induction block.instrs with
    | nil => exact .nil
    | cons i rest ih =>
      rw [List.map_cons, List.flatMap_cons]
      simp only [String.toList_append]
      refine Escaped.append ((((escaped_instrLabel i.id).append ?_).append ?_).append hbreak) ih
      · exact escaped_of_plain rfl
      · exact escaped_escape (g.instrText i)

theorem escaped_dotStyle (g : FlowGraph) (nest : LoopNest) (b : Nat) (block : Block) :
    Escaped (g.dotStyle nest b block).toList := by
  rw [dotStyle, String.toList_append]
  refine Escaped.append ?_ ?_
  · split
    · exact escaped_of_plain rfl
    · split <;> exact escaped_of_plain rfl
  · split <;> exact escaped_of_plain rfl

theorem quotes_dotBlock (g : FlowGraph) (nest : LoopNest) (b : Nat) (block : Block) :
    Quotes (g.dotBlock nest b block) ("    " ++ blockLabel b ++ " [label=") (g.dotLabel b block)
      (g.dotStyle nest b block ++ "];") := by
  have hquotes := quotes_of_escaped (g.escaped_dotLabel b block)
    ("    " ++ blockLabel b ++ " [label=") (g.dotStyle nest b block ++ "];")
  have hopening : " [label=\"" = " [label=" ++ "\"" := rfl
  rw [dotBlock, hopening]
  simpa only [String.append_assoc] using hquotes

/-! ### The lines of a drawing -/

theorem newline_notMem_dotBlock (g : FlowGraph) (nest : LoopNest) (b : Nat) (block : Block) :
    '\n' ∉ (g.dotBlock nest b block).toList := by
  have hname := (escaped_blockLabel b).newline_notMem
  have hlabel := (g.escaped_dotLabel b block).newline_notMem
  have hstyle := (g.escaped_dotStyle nest b block).newline_notMem
  simp only [dotBlock, String.toList_append, List.mem_append, not_or]
  exact ⟨⟨⟨⟨⟨⟨by decide, hname⟩, by decide⟩, hlabel⟩, by decide⟩, hstyle⟩, by decide⟩

theorem newline_notMem_dotEdge (nest : LoopNest) (source target : Nat) :
    '\n' ∉ (dotEdge nest source target).toList := by
  have hsource := (escaped_blockLabel source).newline_notMem
  have htarget := (escaped_blockLabel target).newline_notMem
  simp only [dotEdge, String.toList_append, List.mem_append, not_or]
  exact ⟨⟨⟨⟨by decide, hsource⟩, by decide⟩, htarget⟩, by split <;> decide⟩

theorem newline_notMem_dotLines (g : FlowGraph) (title : Option String) :
    ∀ line ∈ g.dotLines title, '\n' ∉ line.toList := by
  intro line hline
  simp only [dotLines, List.mem_append, List.mem_cons, List.not_mem_nil, or_false, List.mem_map,
    Option.mem_toList, Option.map_eq_some_iff] at hline
  rcases hline with (((((rfl | ⟨name, -, rfl⟩) | (rfl | rfl | rfl)) | ⟨⟨block, b⟩, -, rfl⟩) | rfl) |
    ⟨⟨source, target⟩, -, rfl⟩) | rfl
  · decide
  · have hname := (escaped_escape name).newline_notMem
    simp only [String.toList_append, List.mem_append, not_or]
    exact ⟨⟨by decide, hname⟩, by decide⟩
  · decide
  · decide
  · decide
  · exact g.newline_notMem_dotBlock _ b block
  · decide
  · exact newline_notMem_dotEdge _ source target
  · decide

theorem length_dotLines (g : FlowGraph) (title : Option String) :
    (g.dotLines title).length = 6 + g.blockCount + g.edges.length + title.toList.length := by
  simp only [dotLines, List.length_append, List.length_map, List.length_zipIdx, List.length_cons,
    List.length_nil, Array.length_toList, Option.toList_map, blockCount]
  omega

/-- The lines of the blocks stand behind a heading, and those of the edges behind an empty line. -/
theorem dotLines_eq (g : FlowGraph) (title : Option String) :
    ∃ heading : List String, heading.length = 4 + title.toList.length ∧
      g.dotLines title = heading ++
        (g.blocks.toList.zipIdx.map (fun p ↦ g.dotBlock g.loops p.2 p.1) ++
          "" :: (g.edges.map (fun e ↦ dotEdge g.loops e.1 e.2) ++ ["\x7d"])) := by
  have hsuffix : g.blocks.toList.zipIdx.map (fun p ↦ g.dotBlock g.loops p.2 p.1) ++
      "" :: (g.edges.map (fun e ↦ dotEdge g.loops e.1 e.2) ++ ["\x7d"]) <:+ g.dotLines title := by
    rw [dotLines, List.append_assoc, List.append_assoc, List.append_assoc]
    exact List.suffix_append _ _
  obtain ⟨heading, hlines⟩ := hsuffix
  have hlength := congrArg List.length hlines
  rw [length_dotLines] at hlength
  simp only [List.length_append, List.length_map, List.length_zipIdx, List.length_cons,
    List.length_nil, Array.length_toList, blockCount] at hlength
  exact ⟨heading, by omega, hlines.symm⟩

theorem getElem?_dotLines_block (title : Option String) {b : Nat} {block : Block}
    (hb : g.block? b = some block) :
    (g.dotLines title)[4 + title.toList.length + b]? = some (g.dotBlock g.loops b block) := by
  obtain ⟨heading, hheading, hlines⟩ := g.dotLines_eq title
  have hblock : g.blocks.toList[b]? = some block := by rwa [Array.getElem?_toList]
  have hlt : b < g.blocks.toList.length := (List.getElem?_eq_some_iff.mp hblock).1
  rw [hlines, ← hheading, List.getElem?_append_right (Nat.le_add_right _ _),
    Nat.add_sub_cancel_left, List.getElem?_append_left (by simpa using hlt), List.getElem?_map,
    List.getElem?_zipIdx, hblock, Option.map_some, Option.map_some, Nat.zero_add]

theorem getElem?_dotLines_edge (title : Option String) {k source target : Nat}
    (hk : g.edges[k]? = some (source, target)) :
    (g.dotLines title)[5 + title.toList.length + g.blockCount + k]? =
      some (dotEdge g.loops source target) := by
  obtain ⟨heading, hheading, hlines⟩ := g.dotLines_eq title
  have hlt : k < g.edges.length := (List.getElem?_eq_some_iff.mp hk).1
  have hplace : 5 + title.toList.length + g.blockCount + k =
      heading.length + (g.blockCount + (k + 1)) := by omega
  have hblocks : (g.blocks.toList.zipIdx.map fun p ↦ g.dotBlock g.loops p.2 p.1).length =
      g.blockCount := by simp [blockCount]
  rw [hlines, hplace, List.getElem?_append_right (Nat.le_add_right _ _), Nat.add_sub_cancel_left,
    ← hblocks, List.getElem?_append_right (Nat.le_add_right _ _), Nat.add_sub_cancel_left,
    List.getElem?_cons_succ, List.getElem?_append_left (by simpa using hlt), List.getElem?_map, hk,
    Option.map_some]

theorem mem_backEdges_iff (hg : g.WellFormed) {source target : Nat}
    (h : (source, target) ∈ g.edges) :
    (source, target) ∈ g.loops.backEdges ↔ g.toDigraph.BackEdge source target := by
  obtain ⟨b, hb, hs⟩ := List.mem_flatMap.mp h
  obtain ⟨s, hsucc, heq⟩ := List.mem_map.mp hs
  obtain ⟨rfl, rfl⟩ := Prod.mk.inj heq
  have hlt : b < g.blockCount := List.mem_range.mp hb
  have hblocks : g.isEmpty = false := isEmpty_eq_false_iff.mpr (Nat.zero_lt_of_lt hlt)
  have hlinked := Digraph.linked_toDigraph hg hblocks
  rw [loops, LoopNest.ofDigraph, Digraph.mem_backEdges hlinked, Digraph.succs_toDigraph]
  exact and_iff_right hsucc

/-- The drawing has one line for each block and one for each edge, in their orders, and no other
lines than the fixed ones. Each label ends at its closing quote, and the back edges are dashed. -/
structure Drawn (g : FlowGraph) (title : Option String) (text : String) : Prop where
  newlines : text.toList.count '\n' =
    6 + g.blockCount + g.edges.length + title.toList.length
  title_line : ∀ name, title = some name → ∃ line, (lines text)[1]? = some line ∧
    Quotes line "    label=" ("CFG: " ++ escape name) ";"
  block_line : ∀ b block, g.block? b = some block →
    ∃ line, (lines text)[4 + title.toList.length + b]? = some line ∧
      Quotes line ("    " ++ blockLabel b ++ " [label=") (g.dotLabel b block)
        (g.dotStyle g.loops b block ++ "];")
  edge_line : ∀ k source target, g.edges[k]? = some (source, target) →
    ∃ line, (lines text)[5 + title.toList.length + g.blockCount + k]? = some line ∧
      (g.toDigraph.BackEdge source target →
        line = "    " ++ blockLabel source ++ " -> " ++ blockLabel target ++ " [style=dashed];") ∧
      (¬g.toDigraph.BackEdge source target →
        line = "    " ++ blockLabel source ++ " -> " ++ blockLabel target ++ ";")

theorem getElem?_lines_toDot {n : Nat} {line : String} (h : (g.dotLines title)[n]? = some line) :
    (lines (g.toDot title))[n]? = some line := by
  rw [toDot, lines_join (g.newline_notMem_dotLines title),
    List.getElem?_append_left (List.getElem?_eq_some_iff.mp h).1, h]

theorem drawn_toDot (hg : g.WellFormed) (title : Option String) :
    g.Drawn title (g.toDot title) where
  newlines := by
    rw [toDot, count_newline_join (g.newline_notMem_dotLines title), length_dotLines]
  title_line name htitle := by
    subst htitle
    have hlabel : Escaped ("CFG: " ++ escape name).toList := by
      rw [String.toList_append]
      exact (escaped_of_plain rfl).append (escaped_escape name)
    refine ⟨_, getElem?_lines_toDot rfl, ?_⟩
    have hopening : "    label=\"CFG: " = "    label=" ++ "\"" ++ "CFG: " := rfl
    have hending : "\";" = "\"" ++ ";" := rfl
    have hquotes := quotes_of_escaped hlabel "    label=" ";"
    rw [hopening, hending]
    simpa only [String.append_assoc] using hquotes
  block_line b block hb :=
    ⟨_, getElem?_lines_toDot (getElem?_dotLines_block title hb), quotes_dotBlock g g.loops b block⟩
  edge_line k source target hk := by
    have hback := mem_backEdges_iff hg (List.mem_of_getElem? hk)
    refine ⟨_, getElem?_lines_toDot (getElem?_dotLines_edge title hk), fun h ↦ ?_, fun h ↦ ?_⟩
    · rw [dotEdge, if_pos (List.contains_iff_mem.mpr (hback.mpr h))]
    · rw [dotEdge, if_neg fun hmem ↦ h (hback.mp (List.contains_iff_mem.mp hmem))]

/-- A built graph is drawn line by line whatever its title, its names and its texts are, and
escaping loses their carriage returns and nothing else. -/
theorem drawings_withstand_texts {d : Draft} (hbuild : d.build = .ok g) (title : Option String) :
    g.Drawn title (g.toDot title) ∧
      (∀ text, unescape (escape text) = String.ofList (text.toList.filter (· ≠ '\r'))) ∧
      ∀ s t : String, '\r' ∉ s.toList → '\r' ∉ t.toList → escape s = escape t → s = t :=
  ⟨drawn_toDot (d.wellFormed_of_build hbuild) title, unescape_escape,
    fun _ _ hs ht h ↦ escape_inj hs ht h⟩

/-- Quotes, backslashes and line breaks in a variable, a constant and a callee. -/
def unruly : Draft where
  blocks := #[#[.assign 0 (.operand (.const (.str "\"\\")))], #[.call "f\n\"];\\" 2]]
  edges := #[(0, 1), (1, 1)]
  varNames := #["a\"\\\r\n"]
  stray := none
  edges_nodup := by decide
  varNames_nodup := List.nodup_singleton _

theorem drawings_withstand_texts_unruly :
    let g := unruly.toFlowGraph
    let text := g.toDot (some "\\")
    text.toList.count '\n' = 11 ∧
      (∃ line, (lines text)[1]? = some line ∧ Quotes line "    label=" "CFG: \\\\" ";") ∧
      (∃ line, (lines text)[6]? = some line ∧
        Quotes line "    B1 [label=" "B1\\li1: call f\\n\\\"];\\\\/2\\l" ", penwidth=2];") ∧
      (lines text)[8]? = some "    B0 -> B1;" ∧
      (lines text)[9]? = some "    B1 -> B1 [style=dashed];" ∧
      unescape (escape "a\"\\\r\n") = "a\"\\\n" := by
  intro g text
  have hbuild : unruly.build = .ok g := rfl
  obtain ⟨hdrawn, hescape, -⟩ := drawings_withstand_texts hbuild (some "\\")
  let block : Block := { instrs := [⟨1, .call "f\n\"];\\" 2⟩], succs := [1], preds := [0, 1] }
  have hvalues : g.dotLabel 1 block = "B1\\li1: call f\\n\\\"];\\\\/2\\l" ∧
      g.dotStyle g.loops 1 block ++ "];" = ", penwidth=2];" ∧
      1 ∈ g.toDigraph.succs 0 := by decide +kernel
  obtain ⟨hlabel, hstyle, hedge⟩ := hvalues
  obtain ⟨called, hcalled, hquotes⟩ := hdrawn.block_line 1 block rfl
  rw [hlabel, hstyle] at hquotes
  have hforward : ¬g.toDigraph.BackEdge 0 1 := fun h ↦
    absurd (h.dominates [0] .refl) (by decide)
  have hback : g.toDigraph.BackEdge 1 1 :=
    ⟨⟨[0, 1], Digraph.Walk.refl.concat hedge⟩, Digraph.Dominates.refl _ 1⟩
  obtain ⟨entering, hentering, -, hplain⟩ := hdrawn.edge_line 0 0 1 rfl
  obtain ⟨looping, hlooping, hdashed, -⟩ := hdrawn.edge_line 1 1 1 rfl
  exact ⟨hdrawn.newlines, hdrawn.title_line "\\" rfl, ⟨called, hcalled, hquotes⟩,
    hentering.trans (congrArg some (hplain hforward)),
    hlooping.trans (congrArg some (hdashed hback)), hescape _⟩

end FlowGraph

end FlowFacts

import FlowFacts.FlowGraph

/-!
Graphviz drawings of control-flow graphs: one line for each block and one for each edge. The entry,
the exits and the loop headers are marked, and back edges are dashed. Names and texts are escaped,
so that no label can end early or break its line.
-/

set_option autoImplicit false
set_option relaxedAutoImplicit false

namespace FlowFacts

namespace Dot

/-- Quotes, backslashes and the delimiters of record shapes get a backslash, a line feed becomes a
backslash and the letter n, and a carriage return is dropped. -/
def escapeChar (c : Char) : List Char :=
  match c with
  | '\\' | '"' | '<' | '>' | '\x7b' | '\x7d' | '|' => ['\\', c]
  | '\n' => ['\\', 'n']
  | '\r' => []
  | c => [c]

def escape (text : String) : String :=
  String.ofList (text.toList.flatMap escapeChar)

end Dot

namespace FlowGraph

def dotLabel (g : FlowGraph) (b : Nat) (block : Block) : String :=
  blockLabel b ++ (if b = g.entry then " (entry)" else "") ++
    (if block.succs.isEmpty then " (exit)" else "") ++ "\\l" ++
    String.join (block.instrs.map fun i ↦
      instrLabel i.id ++ ": " ++ Dot.escape (g.instrText i) ++ "\\l")

def dotStyle (g : FlowGraph) (nest : LoopNest) (b : Nat) (block : Block) : String :=
  (if b = g.entry then ", style=filled, fillcolor=lightgreen"
    else if block.succs.isEmpty then ", style=filled, fillcolor=lightcoral"
    else "") ++
    (if nest.isHeader b then ", penwidth=2" else "")

def dotBlock (g : FlowGraph) (nest : LoopNest) (b : Nat) (block : Block) : String :=
  "    " ++ blockLabel b ++ " [label=\"" ++ g.dotLabel b block ++ "\"" ++
    g.dotStyle nest b block ++ "];"

def dotEdge (nest : LoopNest) (source target : Nat) : String :=
  "    " ++ blockLabel source ++ " -> " ++ blockLabel target ++
    (if nest.backEdges.contains (source, target) then " [style=dashed];" else ";")

def dotLines (g : FlowGraph) (title : Option String) : List String :=
  let nest := g.loops
  ["digraph CFG \x7b"] ++
    (title.map fun name ↦ "    label=\"CFG: " ++ Dot.escape name ++ "\";").toList ++
    ["    labelloc=t;", "    node [shape=box, fontname=\"Courier\", fontsize=10];", ""] ++
    (g.blocks.toList.zipIdx.map fun (block, b) ↦ g.dotBlock nest b block) ++
    [""] ++
    (g.edges.map fun (source, target) ↦ dotEdge nest source target) ++
    ["\x7d"]

def toDot (g : FlowGraph) (title : Option String) : String :=
  String.join ((g.dotLines title).map (· ++ "\n"))

end FlowGraph

end FlowFacts

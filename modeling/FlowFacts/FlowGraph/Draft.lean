import FlowFacts.FlowGraph

/-!
Control-flow graphs under construction. Blocks, variables, instructions and edges are added in any
order. A finished draft numbers its instructions by block and then in execution order; it is refused
if an instruction went to a block that did not exist or an edge leaves the final blocks.
-/

set_option autoImplicit false
set_option relaxedAutoImplicit false

namespace FlowFacts

inductive BuildError where
  | unknownBlock (block : Nat)
  | danglingEdge (source target : Nat) (blockCount : Nat)
  deriving DecidableEq

def BuildError.message : BuildError → String
  | unknownBlock block => "instruction added to unknown block " ++ blockLabel block
  | danglingEdge source target blockCount =>
    "edge " ++ blockLabel source ++ " -> " ++ blockLabel target ++
      " references a block outside 0.." ++ toString blockCount

structure Draft where
  blocks : Array (Array Stmt)
  /-- The edges in the order of their first addition. -/
  edges : Array (Nat × Nat)
  varNames : Array String
  /-- The first block that an instruction was added to before it existed. -/
  stray : Option Nat
  edges_nodup : edges.toList.Nodup
  varNames_nodup : varNames.toList.Nodup

namespace Draft

theorem nodup_toList_push {α : Type} {items : Array α} {item : α} (h : items.toList.Nodup)
    (hitem : item ∉ items) : (items.push item).toList.Nodup := by
  rw [Array.toList_push, List.nodup_append]
  refine ⟨h, by simp, fun a ha b hb hab ↦ hitem ?_⟩
  rw [← List.mem_singleton.mp hb, ← hab]
  exact Array.mem_def.mpr ha

def empty : Draft where
  blocks := #[]
  edges := #[]
  varNames := #[]
  stray := none
  edges_nodup := List.nodup_nil
  varNames_nodup := List.nodup_nil

instance : EmptyCollection Draft where
  emptyCollection := empty

/-- A new block without instructions. -/
def addBlock (d : Draft) : Nat × Draft :=
  (d.blocks.size, { d with blocks := d.blocks.push #[] })

/-- The variable of that name, which is new unless the name was used before. -/
def intern (d : Draft) (name : String) : Nat × Draft :=
  if h : name ∈ d.varNames then (d.varNames.findIdx (· == name), d)
  else
    (d.varNames.size,
      { d with
        varNames := d.varNames.push name
        varNames_nodup := nodup_toList_push d.varNames_nodup h })

/-- Adds a statement at the end of a block. -/
def push (d : Draft) (block : Nat) (stmt : Stmt) : Draft :=
  if block < d.blocks.size then { d with blocks := d.blocks.modify block (·.push stmt) }
  else { d with stray := d.stray.or (some block) }

/-- Adds an edge unless the draft has it. -/
def addEdge (d : Draft) (source target : Nat) : Draft :=
  if h : (source, target) ∈ d.edges then d
  else
    { d with
      edges := d.edges.push (source, target)
      edges_nodup := nodup_toList_push d.edges_nodup h }

/-- Numbers the statements of consecutive blocks from `first` on. -/
def number : Nat → List (Array Stmt) → List (List Instr)
  | _, [] => []
  | first, stmts :: rest =>
    (stmts.toList.zipIdx first).map (fun (stmt, id) ↦ { id := id, stmt := stmt }) ::
      number (first + stmts.size) rest

/-- The graph of a draft without faults. -/
def toFlowGraph (d : Draft) : FlowGraph where
  blocks := ((number 0 d.blocks.toList).zipIdx.map fun (instrs, b) ↦
    { instrs := instrs
      succs := Digraph.targetsOf d.edges.toList b
      preds := Digraph.sourcesOf d.edges.toList b : Block }).toArray
  varNames := d.varNames

/-- The first edge with an end that is no block. -/
def danglingEdge? (d : Draft) : Option (Nat × Nat) :=
  d.edges.toList.find? fun (source, target) ↦
    !(source < d.blocks.size && target < d.blocks.size)

def build (d : Draft) : Except BuildError FlowGraph :=
  match d.stray with
  | some block => .error (.unknownBlock block)
  | none =>
    match d.danglingEdge? with
    | some (source, target) => .error (.danglingEdge source target d.blocks.size)
    | none => .ok d.toFlowGraph

end Draft

end FlowFacts

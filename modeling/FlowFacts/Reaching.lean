import FlowFacts.Analysis.Results
import FlowFacts.Text.Braced

/-!
Reaching definitions: which assignments may have given a variable the value it has. An assignment
replaces every other definition of its variable. A call may change what the entry block set up, so
it ends every definition made there.
-/

set_option autoImplicit false
set_option relaxedAutoImplicit false

namespace FlowFacts

/-- The assignment of a variable at a place in a block. -/
structure Definition where
  var : Nat
  block : Nat
  index : Nat
  /-- The assigning instruction, which plays no part in comparisons. -/
  instr : Option Nat
  deriving Inhabited

namespace Definition

instance : BEq Definition where
  beq d e := d.block == e.block && d.index == e.index && d.var == e.var

/-- Definitions are ordered by place and then by variable. -/
def le (d e : Definition) : Bool :=
  d.block < e.block || (d.block == e.block &&
    (d.index < e.index || (d.index == e.index && d.var ≤ e.var)))

def sort (defs : List Definition) : List Definition :=
  defs.mergeSort le

/-- The definitions without repetition, each where it occurs first. -/
def distinct (defs : List Definition) : List Definition :=
  defs.foldl (fun seen d ↦ if seen.contains d then seen else seen ++ [d]) []

def placeText (d : Definition) : String :=
  "@" ++ blockLabel d.block ++ ":" ++ toString d.index

def text (d : Definition) : String :=
  varLabel d.var ++ d.placeText

/-- The text with the variable's name in a graph. -/
def textIn (d : Definition) (g : FlowGraph) : String :=
  g.varName d.var ++ d.placeText

/-- One definition for each assignment of a graph, in the order of the instructions. -/
def ofGraph (g : FlowGraph) : List Definition :=
  g.blocks.toList.zipIdx.flatMap fun (block, b) ↦
    block.instrs.zipIdx.filterMap fun (i, k) ↦
      i.target?.map fun v ↦ { var := v, block := b, index := k, instr := some i.id }

/-- The positions of the definitions with a property, in ascending order. -/
def positions (defs : Array Definition) (p : Definition → Bool) : List Nat :=
  (defs.toList.zipIdx.filter fun (d, _) ↦ p d).map (·.2)

theorem positions_push (defs : Array Definition) (d : Definition) (p : Definition → Bool) :
    positions (defs.push d) p = positions defs p ++ if p d then [defs.size] else [] := by
  rw [positions, Array.toList_push, List.zipIdx_append, List.filter_append, List.map_append]
  refine congrArg (positions defs p ++ ·) ?_
  cases h : p d <;> simp [h]

end Definition

/-- All definitions of a graph. A fact is the set of their positions in this table. The positions
are filed by variable and by the assigning instruction, of which the last position counts. -/
structure DefTable where
  defs : Array Definition
  byInstr : Array (Option Nat)
  byVar : Array (Array Nat)
  byInstr_eq : ∀ i < byInstr.size,
    byInstr.getD i none = (Definition.positions defs (·.instr == some i)).getLast?
  byVar_eq : ∀ v, (byVar.getD v #[]).toList = Definition.positions defs (·.var == v)

namespace DefTable

/-- A table without definitions, with room for the given numbers of instructions and variables. -/
def new (instrCount varCount : Nat) : DefTable where
  defs := #[]
  byInstr := Array.replicate instrCount none
  byVar := Array.replicate varCount #[]
  byInstr_eq i hi := by
    rw [Array.size_replicate] at hi
    simp [Definition.positions, Array.getD, hi]
  byVar_eq v := by
    by_cases h : v < varCount <;> simp [Definition.positions, Array.getD, h]

instance : Inhabited DefTable where
  default := new 0 0

/-- Notes under an instruction where its definition stands. An unknown instruction is passed
over. -/
def fileInstr (byInstr : Array (Option Nat)) (instr : Option Nat) (n : Nat) : Array (Option Nat) :=
  match instr with
  | some i => byInstr.setIfInBounds i (some n)
  | none => byInstr

/-- Notes under a variable where a definition of it stands, making room for the variable if there is
need. -/
def fileVar (byVar : Array (Array Nat)) (v n : Nat) : Array (Array Nat) :=
  (byVar.rightpad (v + 1) #[]).modify v (·.push n)

@[simp] theorem size_fileInstr (byInstr : Array (Option Nat)) (instr : Option Nat) (n : Nat) :
    (fileInstr byInstr instr n).size = byInstr.size := by
  cases instr <;> simp [fileInstr]

theorem getD_fileInstr {byInstr : Array (Option Nat)} {i : Nat} (hi : i < byInstr.size)
    (instr : Option Nat) (n : Nat) :
    (fileInstr byInstr instr n).getD i none =
      if instr == some i then some n else byInstr.getD i none := by
  cases instr with
  | none => rfl
  | some k =>
    by_cases h : k = i
    · simp [fileInstr, h, hi]
    · simp [fileInstr, h]

theorem getD_fileVar (byVar : Array (Array Nat)) (v n w : Nat) :
    (fileVar byVar v n).getD w #[] =
      if v == w then (byVar.getD w #[]).push n else byVar.getD w #[] := by
  have hpad : (byVar.rightpad (v + 1) #[]).getD w #[] = byVar.getD w #[] :=
    getD_append_replicate _ _ _ _
  have hsize : v < (byVar.rightpad (v + 1) #[]).size := by
    simp [Array.rightpad]
    omega
  rw [← hpad, fileVar]
  by_cases h : v = w
  · subst h
    simp only [Array.getD_eq_getD_getElem?, Array.getElem?_modify, Array.getElem?_eq_getElem hsize,
      Option.map_some, Option.getD_some, if_true, beq_self_eq_true]
  · simp [Array.getD_eq_getD_getElem?, Array.getElem?_modify, h]

/-- Adds a definition at the end and files its position. -/
def record (t : DefTable) (d : Definition) : DefTable where
  defs := t.defs.push d
  byInstr := fileInstr t.byInstr d.instr t.defs.size
  byVar := fileVar t.byVar d.var t.defs.size
  byInstr_eq i hi := by
    rw [size_fileInstr] at hi
    rw [getD_fileInstr hi, Definition.positions_push, t.byInstr_eq i hi]
    split
    · exact List.getLast?_concat.symm
    · rw [List.append_nil]
  byVar_eq v := by
    rw [getD_fileVar, Definition.positions_push, ← t.byVar_eq v]
    split
    · exact Array.toList_push
    · rw [List.append_nil]

/-- The definitions of a graph, recorded one after the other. -/
def ofGraph (g : FlowGraph) : DefTable :=
  (Definition.ofGraph g).foldl record (new g.instrCount g.varCount)

def size (t : DefTable) : Nat :=
  t.defs.size

/-- The position of the definition that an instruction makes. -/
def idOf? (t : DefTable) (i : Nat) : Option Nat :=
  t.byInstr.getD i none

/-- The definition that an instruction makes. -/
def ofInstr? (t : DefTable) (i : Nat) : Option Definition :=
  (t.idOf? i).bind (t.defs[·]?)

/-- The positions of the definitions with a property. -/
def idsWhere (t : DefTable) (p : Definition → Bool) : List Nat :=
  Definition.positions t.defs p

/-- The positions of the definitions of a variable. -/
def idsOf (t : DefTable) (v : Nat) : List Nat :=
  (t.byVar.getD v #[]).toList

/-- The definitions of a variable, in table order. -/
def ofVar (t : DefTable) (v : Nat) : List Definition :=
  (t.idsOf v).filterMap (t.defs[·]?)

/-- The definitions made in the entry block. -/
def globals (t : DefTable) : BitSet :=
  BitSet.ofList t.size (t.idsWhere (·.block == 0))

/-- The definition that an instruction makes, as a set. -/
def gen (t : DefTable) (i : Instr) : BitSet :=
  BitSet.ofList t.size (t.idOf? i.id).toList

/-- The definitions that do not get past an instruction. -/
def kill (t : DefTable) (i : Instr) : BitSet :=
  let replaced :=
    match i.target? with
    | some v =>
      BitSet.ofList t.size ((t.idsOf v).filter (some · != t.idOf? i.id))
    | none => BitSet.new t.size
  if i.isCall then replaced.union t.globals else replaced

def analysis (t : DefTable) : Analysis BitSet where
  name := "ReachingDefinitions"
  direction := .forward
  initial := BitSet.new t.size
  meet := BitSet.union
  transfer i fact := (fact.diff (t.kill i)).union (t.gen i)

/-- The definitions of a fact, in table order. -/
def resolve (t : DefTable) (fact : BitSet) : List Definition :=
  fact.toList.filterMap (t.defs[·]?)

/-- Adds a definition behind those of its variable, in groups by ascending variable. -/
def addToGroup : List (Nat × List Definition) → Definition → List (Nat × List Definition)
  | [], d => [(d.var, [d])]
  | (v, defs) :: rest, d =>
    if d.var < v then (d.var, [d]) :: (v, defs) :: rest
    else if d.var = v then (v, defs ++ [d]) :: rest
    else (v, defs) :: addToGroup rest d

/-- The definitions of a fact for each variable that has some, by variable. -/
def groupByVar (t : DefTable) (fact : BitSet) : List (Nat × List Definition) :=
  (t.resolve fact).foldl addToGroup []

/-- The definitions that reach the start of a block. -/
def reachingBlock (t : DefTable) (r : Results BitSet) (b : Nat) : List Definition :=
  t.resolve (r.blockIn b)

/-- The definitions of a variable that reach an instruction. -/
def reachingAt (t : DefTable) (r : Results BitSet) (i : Nat) (v : Nat) : List Definition :=
  (t.resolve (r.instrIn i)).filter (·.var == v)

def report (t : DefTable) (g : FlowGraph) (r : Results BitSet) : String :=
  r.report g "reaching definitions" fun fact ↦
    Text.braced ((t.resolve fact).map (·.textIn g))

end DefTable

end FlowFacts

import FlowFacts.Analysis.Results
import FlowFacts.Text.Braced

/-!
Constant propagation: which variables hold one known constant. A literal or a copy of a known
variable gives its target a value; other right-hand sides do so only when folding is on. While the
value of a right-hand side is not known yet, its target keeps what it has.
-/

set_option autoImplicit false
set_option relaxedAutoImplicit false

namespace FlowFacts

/-- What is known of one variable: nothing yet, one constant, or that it is no constant. -/
inductive ConstFact where
  | undefined
  | constant (c : Const)
  | notConstant
  deriving DecidableEq, Inhabited

namespace ConstFact

def isUndefined : ConstFact → Bool
  | undefined => true
  | _ => false

def isConstant : ConstFact → Bool
  | constant _ => true
  | _ => false

def isNotConstant : ConstFact → Bool
  | notConstant => true
  | _ => false

def const? : ConstFact → Option Const
  | constant c => some c
  | _ => none

def meet : ConstFact → ConstFact → ConstFact
  | undefined, x => x
  | x, undefined => x
  | constant a, constant b => if a = b then constant a else notConstant
  | notConstant, _ => notConstant
  | _, notConstant => notConstant

def text : ConstFact → String
  | undefined => "undefined"
  | constant c => c.text
  | notConstant => "not-constant"

/-- The outcome of an evaluation, which may fail. -/
def ofResult : Option Const → ConstFact
  | some c => constant c
  | none => notConstant

def applyUnary (op : UnaryOp) : ConstFact → ConstFact
  | undefined => undefined
  | constant c => ofResult (op.apply c)
  | notConstant => notConstant

/-- An operand that is no constant decides, before one that is not known yet. -/
def applyBinary (op : BinaryOp) : ConstFact → ConstFact → ConstFact
  | notConstant, _ => notConstant
  | _, notConstant => notConstant
  | undefined, _ => undefined
  | _, undefined => undefined
  | constant a, constant b => ofResult (op.apply a b)

end ConstFact

/-- What is known of every variable; nothing of those past the end. -/
structure ConstState where
  values : Array ConstFact
  deriving Inhabited

namespace ConstState

def new (varCount : Nat) : ConstState where
  values := Array.replicate varCount .undefined

instance : EmptyCollection ConstState where
  emptyCollection := new 0

def get (s : ConstState) (v : Nat) : ConstFact :=
  s.values.getD v .undefined

@[simp] theorem get_new (varCount : Nat) (v : Nat) : (new varCount).get v = .undefined := by
  by_cases h : v < varCount <;> simp [new, get, Array.getD, h]

theorem get_of_size_le {s : ConstState} {v : Nat} (h : s.values.size ≤ v) :
    s.get v = .undefined := by
  simp [get, Array.getD, Nat.not_lt.mpr h]

/-- Records what is known of a variable, growing the state to reach it if there is need. -/
def set (s : ConstState) (v : Nat) (fact : ConstFact) : ConstState :=
  if v < s.values.size then { values := s.values.setIfInBounds v fact }
  else if fact.isUndefined then s
  else { values := (s.values.rightpad (v + 1) .undefined).setIfInBounds v fact }

theorem get_set (s : ConstState) (v w : Nat) (fact : ConstFact) :
    (s.set v fact).get w = if w = v then fact else s.get w := by
  unfold set
  split
  case isTrue hv =>
    by_cases h : w = v
    · simp [get, h, hv]
    · have h' : v ≠ w := fun e ↦ h e.symm
      simp [get, h, h']
  case isFalse hv =>
    split
    case isTrue hu =>
      have hf : fact = .undefined := by cases fact <;> simp_all [ConstFact.isUndefined]
      by_cases h : w = v
      · simp [h, hf, get_of_size_le (Nat.not_lt.mp hv)]
      · simp [h]
    case isFalse hu =>
      have hsize : v < (s.values.rightpad (v + 1) ConstFact.undefined).size := by
        simp [Array.rightpad]
        omega
      by_cases h : w = v
      · subst h
        simp only [get, if_true, Array.getD_eq_getD_getElem?,
          Array.getElem?_setIfInBounds_self_of_lt hsize, Option.getD_some]
      · have h' : v ≠ w := fun e ↦ h e.symm
        rw [if_neg h, get, Array.getD_eq_getD_getElem?, Array.getElem?_setIfInBounds_ne h',
          ← Array.getD_eq_getD_getElem?]
        exact getD_append_replicate _ _ _ _

/-- Two states are equal when they say the same of every variable, whatever their lengths. -/
instance : BEq ConstState where
  beq s t := (List.range (max s.values.size t.values.size)).all fun v ↦ s.get v == t.get v

def meet (s t : ConstState) : ConstState where
  values := (Array.range (max s.values.size t.values.size)).map fun v ↦ (s.get v).meet (t.get v)

theorem beq_iff {s t : ConstState} : (s == t) = true ↔ ∀ v, s.get v = t.get v := by
  constructor
  · intro h v
    have hall : ∀ w < max s.values.size t.values.size, s.get w = t.get w := by
      simpa [BEq.beq, List.all_eq_true] using h
    by_cases hv : v < max s.values.size t.values.size
    · exact hall v hv
    · rw [get_of_size_le (by omega), get_of_size_le (by omega)]
  · intro h
    simp [BEq.beq, List.all_eq_true, h]

@[simp] theorem get_meet (s t : ConstState) (v : Nat) :
    (s.meet t).get v = (s.get v).meet (t.get v) := by
  by_cases hv : v < max s.values.size t.values.size
  · simp [meet, get, Array.getD_eq_getD_getElem?, hv]
  · have hs := get_of_size_le (s := s) (v := v) (by omega)
    have ht := get_of_size_le (s := t) (v := v) (by omega)
    rw [hs, ht, get_of_size_le (by simpa [meet] using Nat.not_lt.mp hv)]
    rfl

/-- The variables of which something is known, in ascending order. -/
def entries (s : ConstState) : List (Nat × ConstFact) :=
  ((List.range s.values.size).map fun v ↦ (v, s.get v)).filter fun (_, fact) ↦ !fact.isUndefined

/-- The variables that hold a known constant, in ascending order. -/
def constants (s : ConstState) : List (Nat × Const) :=
  s.entries.filterMap fun (v, fact) ↦ fact.const?.map fun c ↦ (v, c)

def operand (s : ConstState) : Operand → ConstFact
  | .const c => .constant c
  | .var v => s.get v

/-- The value of a right-hand side as far as the state tells. -/
def value (s : ConstState) (fold : Bool) : Expr → ConstFact
  | .operand x => s.operand x
  | .unary op x => if fold then (s.operand x).applyUnary op else .undefined
  | .binary op x y => if fold then (s.operand x).applyBinary op (s.operand y) else .undefined

/-- What an assignment of the expression records; nothing if its value is not known yet. -/
def evaluate? (s : ConstState) (fold : Bool) (e : Expr) : Option ConstFact :=
  match s.value fold e with
  | .undefined => none
  | fact => some fact

def transfer (fold : Bool) (i : Instr) (s : ConstState) : ConstState :=
  match i.stmt with
  | .assign dest e =>
    match s.evaluate? fold e with
    | some fact => s.set dest fact
    | none => s
  | _ => s

end ConstState

namespace ConstProp

def analysis (g : FlowGraph) (fold : Bool) : Analysis ConstState where
  name := "ConstantPropagation"
  direction := .forward
  initial := ConstState.new g.varCount
  meet := ConstState.meet
  transfer := ConstState.transfer fold

def valueAt (r : Results ConstState) (v : Nat) (b : Nat) : ConstFact :=
  (r.blockIn b).get v

def valueAtExit (r : Results ConstState) (v : Nat) (b : Nat) : ConstFact :=
  (r.blockOut b).get v

/-- Which way the branch at the end of a block goes, if its condition is a known constant. -/
def branchOutcome (r : Results ConstState) (block : Block) : Option Bool :=
  match block.terminator? with
  | some { id := id, stmt := .branch cond } =>
    (((r.instrIn id).operand cond).const?).bind Const.truth?
  | _ => none

def report (g : FlowGraph) (r : Results ConstState) : String :=
  r.report g "constant propagation" fun fact ↦
    Text.braced (fact.entries.map fun (v, x) ↦ g.varName v ++ "=" ++ x.text)

end ConstProp

end FlowFacts

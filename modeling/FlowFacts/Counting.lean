import FlowFacts.Analysis.Results

/-!
Counting: facts are 64-bit numbers, and every instruction adds a weight that depends on its kind.
Sums stop at the largest number, and what leaves an instruction stops at the rule's cap. The numbers
need not settle on a cycle, so this analysis shows what a solver does at its limit.
-/

set_option autoImplicit false
set_option relaxedAutoImplicit false

namespace FlowFacts.Counting

def largest : Nat :=
  UInt64.size - 1

def add (a b : Nat) : Nat :=
  min largest (a + b)

/-- How the numbers of several sources combine. -/
inductive Merge where
  | max
  | min
  | sum
  deriving DecidableEq, Inhabited

namespace Merge

def all : List Merge := [max, min, sum]

def token : Merge → String
  | max => "max"
  | min => "min"
  | sum => "sum"

def ofToken? (token : String) : Option Merge :=
  all.find? (·.token == token)

def apply : Merge → Nat → Nat → Nat
  | max, a, b => Nat.max a b
  | min, a, b => Nat.min a b
  | sum, a, b => add a b

end Merge

structure Rule where
  initial : Nat := 0
  merge : Merge := .max
  assign : Nat := 1
  call : Nat := 0
  other : Nat := 0
  cap : Nat := largest
  deriving Inhabited

def Rule.weight (rule : Rule) (i : Instr) : Nat :=
  match i.stmt with
  | .assign _ _ => rule.assign
  | .call _ _ => rule.call
  | _ => rule.other

def analysis (rule : Rule) (direction : Direction) : Analysis Nat where
  name :=
    match direction with
    | .forward => "CountForward"
    | .backward => "CountBackward"
  direction := direction
  initial := rule.initial
  meet := rule.merge.apply
  transfer i n := min rule.cap (add n (rule.weight i))

def report (g : FlowGraph) (r : Results Nat) : String :=
  r.report g "count" fun n ↦ toString n

end FlowFacts.Counting

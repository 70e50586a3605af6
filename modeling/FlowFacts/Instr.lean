import FlowFacts.Operator

/-!
Instructions of the analysed programs. Variables are numbered from zero. Only an assignment writes a
variable; the right-hand side of an assignment, a branch condition and a returned value read
variables.
-/

set_option autoImplicit false
set_option relaxedAutoImplicit false

namespace FlowFacts

inductive Operand where
  | var (v : Nat)
  | const (c : Const)
  deriving DecidableEq, Inhabited

inductive Expr where
  | operand (value : Operand)
  | unary (op : UnaryOp) (value : Operand)
  | binary (op : BinaryOp) (lhs rhs : Operand)
  deriving DecidableEq, Inhabited

inductive Stmt where
  | assign (dest : Nat) (value : Expr)
  | call (callee : String) (args : Nat)
  | branch (cond : Operand)
  | jump
  | ret (value : Option Operand)
  deriving DecidableEq, Inhabited

/-- A statement with the number it has in its graph. -/
structure Instr where
  id : Nat
  stmt : Stmt
  deriving DecidableEq, Inhabited

namespace Operand

def var? : Operand → Option Nat
  | var v => some v
  | const _ => none

def text (name : Nat → String) : Operand → String
  | var v => name v
  | const c => c.text

end Operand

namespace Expr

/-- The operands from left to right. -/
def operands : Expr → List Operand
  | operand value => [value]
  | unary _ value => [value]
  | binary _ lhs rhs => [lhs, rhs]

def text (name : Nat → String) : Expr → String
  | operand value => value.text name
  | unary op value => op.token ++ value.text name
  | binary op lhs rhs => lhs.text name ++ " " ++ op.token ++ " " ++ rhs.text name

end Expr

namespace Stmt

/-- The operands whose values the statement reads, from left to right. -/
def operands : Stmt → List Operand
  | assign _ value => value.operands
  | call _ _ => []
  | branch cond => [cond]
  | jump => []
  | ret value => value.toList

def text (name : Nat → String) : Stmt → String
  | assign dest value => name dest ++ " = " ++ value.text name
  | call callee args => "call " ++ callee ++ "/" ++ toString args
  | branch cond => "br " ++ cond.text name
  | jump => "jmp"
  | ret none => "ret"
  | ret (some value) => "ret " ++ value.text name

end Stmt

namespace Instr

/-- The variable that the instruction writes. -/
def target? (i : Instr) : Option Nat :=
  match i.stmt with
  | .assign dest _ => some dest
  | _ => none

/-- The variables that the instruction reads, from left to right, repeated as they occur. -/
def reads (i : Instr) : List Nat :=
  i.stmt.operands.filterMap Operand.var?

def isAssign (i : Instr) : Bool :=
  i.target?.isSome

def isCall (i : Instr) : Bool :=
  match i.stmt with
  | .call _ _ => true
  | _ => false

end Instr

end FlowFacts

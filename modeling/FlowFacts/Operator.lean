import FlowFacts.Const

/-!
Operators and their meaning on constants. Integer arithmetic is exact: a result outside the 64-bit
range, like an operand of the wrong kind, gives nothing.
-/

set_option autoImplicit false
set_option relaxedAutoImplicit false

namespace FlowFacts

inductive UnaryOp where
  | neg
  | not
  deriving DecidableEq, Inhabited

namespace UnaryOp

def all : List UnaryOp := [neg, not]

def token : UnaryOp → String
  | neg => "-"
  | not => "!"

def ofToken? (token : String) : Option UnaryOp :=
  all.find? (·.token == token)

def apply : UnaryOp → Const → Option Const
  | neg, .int a => Const.ofInt? (-a.toInt)
  | not, .bool a => some (.bool !a)
  | _, _ => none

end UnaryOp

inductive BinaryOp where
  | add
  | sub
  | mul
  | div
  | mod
  | lt
  | le
  | gt
  | ge
  | eq
  | ne
  | and
  | or
  deriving DecidableEq, Inhabited

namespace BinaryOp

def all : List BinaryOp := [add, sub, mul, div, mod, lt, le, gt, ge, eq, ne, and, or]

def token : BinaryOp → String
  | add => "+"
  | sub => "-"
  | mul => "*"
  | div => "/"
  | mod => "%"
  | lt => "<"
  | le => "<="
  | gt => ">"
  | ge => ">="
  | eq => "=="
  | ne => "!="
  | and => "&&"
  | or => "||"

def ofToken? (token : String) : Option BinaryOp :=
  all.find? (·.token == token)

/-- The quotient rounded toward zero. -/
def quotient? (a b : Int) : Option Const :=
  if b = 0 then none else Const.ofInt? (a.tdiv b)

/-- The remainder of `quotient?`, undefined wherever the quotient is. -/
def remainder? (a b : Int) : Option Const :=
  (quotient? a b).bind fun _ ↦ Const.ofInt? (a.tmod b)

def apply : BinaryOp → Const → Const → Option Const
  | add, .int a, .int b => Const.ofInt? (a.toInt + b.toInt)
  | add, .str a, .str b => some (.str (a ++ b))
  | sub, .int a, .int b => Const.ofInt? (a.toInt - b.toInt)
  | mul, .int a, .int b => Const.ofInt? (a.toInt * b.toInt)
  | div, .int a, .int b => quotient? a.toInt b.toInt
  | mod, .int a, .int b => remainder? a.toInt b.toInt
  | lt, .int a, .int b => some (.bool (a.toInt < b.toInt))
  | le, .int a, .int b => some (.bool (a.toInt ≤ b.toInt))
  | gt, .int a, .int b => some (.bool (b.toInt < a.toInt))
  | ge, .int a, .int b => some (.bool (b.toInt ≤ a.toInt))
  | eq, a, b => if a.sameKind b then some (.bool (a = b)) else none
  | ne, a, b => if a.sameKind b then some (.bool (a ≠ b)) else none
  | and, .bool a, .bool b => some (.bool (a && b))
  | or, .bool a, .bool b => some (.bool (a || b))
  | _, _, _ => none

end BinaryOp

end FlowFacts

import FlowFacts.Text.Quoted

/-!
Constants of the analysed programs: signed 64-bit integers, truth values and texts, with their order
and their printed form.
-/

set_option autoImplicit false
set_option relaxedAutoImplicit false

namespace FlowFacts

inductive Const where
  | int (value : Int64)
  | bool (value : Bool)
  | str (value : String)
  deriving DecidableEq, Inhabited

namespace Const

/-- The integer constant of value `n`, if it fits in 64 bits. -/
def ofInt? (n : Int) : Option Const :=
  if Int64.minValue.toInt ≤ n ∧ n ≤ Int64.maxValue.toInt then some (int (Int64.ofInt n)) else none

def int? : Const → Option Int64
  | int value => some value
  | _ => none

def bool? : Const → Option Bool
  | bool value => some value
  | _ => none

/-- How a branch reads the constant; a text has no truth value. -/
def truth? : Const → Option Bool
  | int value => some (value.toInt != 0)
  | bool value => some value
  | str _ => none

def sameKind : Const → Const → Bool
  | int _, int _ => true
  | bool _, bool _ => true
  | str _, str _ => true
  | _, _ => false

/-- Lexicographic order by code point. -/
def textLE : List Char → List Char → Bool
  | [], _ => true
  | _ :: _, [] => false
  | a :: as, b :: bs => a.toNat < b.toNat || (a.toNat == b.toNat && textLE as bs)

/-- Integers come before truth values and truth values before texts. -/
def le : Const → Const → Bool
  | int a, int b => a.toInt ≤ b.toInt
  | int _, _ => true
  | bool _, int _ => false
  | bool a, bool b => !a || b
  | bool _, str _ => true
  | str a, str b => textLE a.toList b.toList
  | str _, _ => false

def sort (values : List Const) : List Const :=
  values.mergeSort le

def text : Const → String
  | int value => toString value.toInt
  | bool true => "true"
  | bool false => "false"
  | str value => Text.quoted value

end Const

end FlowFacts

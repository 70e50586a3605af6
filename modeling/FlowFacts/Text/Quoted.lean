import FlowFacts.Text.Invisible

/-!
The quoted form of a text: double quotes around it, a short escape for the quote, the backslash and
four controls, and the hexadecimal code point for every other invisible character.
-/

set_option autoImplicit false
set_option relaxedAutoImplicit false

namespace FlowFacts.Text

/-- Lower-case hexadecimal digits without leading zeros, between braces after `\u`. -/
def codePointEscape (c : Char) : List Char :=
  ['\\', 'u', '\x7b'] ++ Nat.toDigits 16 c.toNat ++ ['\x7d']

def quotedChar (c : Char) : List Char :=
  match c with
  | '\x00' => ['\\', '0']
  | '\t' => ['\\', 't']
  | '\r' => ['\\', 'r']
  | '\n' => ['\\', 'n']
  | '"' => ['\\', '"']
  | '\\' => ['\\', '\\']
  | c => if isInvisible c then codePointEscape c else [c]

def quoted (text : String) : String :=
  String.ofList ('"' :: text.toList.flatMap quotedChar ++ ['"'])

end FlowFacts.Text

/-!
The printed form of a collection: its items between braces, separated by a comma and a blank.
-/

set_option autoImplicit false
set_option relaxedAutoImplicit false

namespace FlowFacts.Text

def braced (items : List String) : String :=
  "\x7b" ++ ", ".intercalate items ++ "\x7d"

end FlowFacts.Text

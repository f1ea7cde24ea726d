import FormCalculus.Evaluation.Value
import FormCalculus.Expr.Display

/-!
Bindings as text: each terminal with the shape of its value.
-/
set_option autoImplicit false

namespace FormCalculus

namespace Bindings

/-- A terminal in quotes with the shape that is bound to it. -/
def displayEntry (names : Naming) (entry : Expr × Value) : String :=
  "\"" ++ entry.1.displayWith names ++ "\": " ++ bracketed entry.2.shape

def display (names : Naming) (bindings : Bindings) : String :=
  "\x7b" ++ commaList (bindings.values.toList.map (displayEntry names)) ++ "\x7d"

end Bindings

end FormCalculus

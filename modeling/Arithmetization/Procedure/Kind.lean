/-!
The two procedures of a module: the transition computes the next row from the current one, the
evaluation computes the constraints from two consecutive rows.
-/

set_option autoImplicit false

namespace Arithmetization

inductive ProcedureKind where
  | transition
  | evaluation
deriving DecidableEq, Repr

namespace ProcedureKind

def keyword : ProcedureKind → String
  | .transition => "transition"
  | .evaluation => "evaluation"

/-- The number of consecutive trace rows that a procedure reads. -/
def span : ProcedureKind → Nat
  | .transition => 1
  | .evaluation => 2

end ProcedureKind

end Arithmetization

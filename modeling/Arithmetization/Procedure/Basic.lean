import Arithmetization.Body.Builder
import Arithmetization.Procedure.Kind

/-!
Procedures and functions: bodies whose result has the shape that was promised for it.
-/

set_option autoImplicit false

namespace Arithmetization

/-- The transition or the evaluation of a module; its result is a vector of length `width`. -/
structure Procedure where
  kind : ProcedureKind
  width : Nat
  body : Body
deriving DecidableEq, Repr

namespace Procedure

/-- A procedure, if its body yields a non-empty vector of the given length. -/
def ofBody (kind : ProcedureKind) (width : Nat) (body : Body) : Except Fault Procedure :=
  if 0 < width ∧ body.resultShape = .vector width then .ok ⟨kind, width, body⟩
  else .error (.shape (.procedureResult kind width body.resultShape) none)

end Procedure

/-- A function: a body over parameters that procedures and later functions can call. -/
structure Function where
  params : List Shape
  result : Shape
  body : Body
deriving DecidableEq, Repr

namespace Function

/-- A function, if its body yields the declared shape. -/
def ofBody (params : List Shape) (result : Shape) (body : Body) : Except Fault Function :=
  if body.resultShape = result then .ok ⟨params, result, body⟩
  else .error (.shape (.functionResult result body.resultShape) none)

def signature (f : Function) : Signature :=
  ⟨f.params, f.result⟩

end Function

end Arithmetization

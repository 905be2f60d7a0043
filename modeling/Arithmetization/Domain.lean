import Arithmetization.Field.Element
import Arithmetization.Machine.Fault
import Arithmetization.Register.Builder

/-!
Evaluation domains: the subgroups of roots of unity whose order is a power of two.
-/

set_option autoImplicit false

namespace Arithmetization

/-- The subgroup of order `size` with a generator of it. -/
structure Domain where
  size : Nat
  generator : Element
deriving DecidableEq

namespace Domain

/-- The subgroup of a given order, which has to be a power of two that divides the order of the
multiplicative group. -/
def ofSize (size : Nat) : Except RunFault Domain :=
  if isPowerOfTwo size && Nat.log2 size ≤ Element.twoAdicity then
    .ok ⟨size, if size = 1 then 1 else Element.rootOfUnity (Nat.log2 size)⟩
  else .error (.shape (.subgroup size))

/-- The point with a given index; indexes go around. -/
def point (d : Domain) (i : Nat) : Element :=
  d.generator.pow (i % d.size)

/-- All points in order. -/
def points (d : Domain) : List Element :=
  d.generator.powers d.size

end Domain

end Arithmetization

import Arithmetization.Digest.Blake3
import Arithmetization.Field.Bytes
import Arithmetization.Machine.Fault
import Arithmetization.Register.Basic
import Arithmetization.Transform

/-!
The values of cyclic registers, at steps of the trace and at any point of the field.
-/

set_option autoImplicit false

namespace Arithmetization

namespace Sequence

/-- Entry `i` of the pseudo-random sequence of a seed: the first sixteen bytes of the digest of the
seed followed by `i` in eight bytes, the lowest first, as a number modulo `M`. -/
def prngAt (seed : List UInt8) (i : Nat) : Element :=
  let digest := Digest.Blake3.hash (seed ++ Word.bytesOf 8 i)
  .ofNat (Word.numberOf (digest.take elementBytes) % Word.modulus)

/-- Entry `i` of the powers of a number. -/
def powerAt (base : Element) (i : Nat) : Element :=
  base.pow i

end Sequence

/-- One period of a cyclic register: its values, and the polynomial that takes them over the domain
of their number. -/
structure CyclicColumn where
  values : List Element
  poly : List Element
deriving DecidableEq

namespace CyclicColumn

/-- A written number as an element. -/
def fieldElement (n : Nat) : Except RunFault Element :=
  if n < Word.modulus then .ok (.ofNat n) else .error (.input (.cycleValue n))

/-- The values of one period. -/
def sourceValues : CycleSource → Except RunFault (List Element)
  | .values vs => vs.mapM fieldElement
  | .prng seed count => .ok ((List.range count).map (Sequence.prngAt seed))
  | .power base count => do return (← fieldElement base).powers count

/-- The column of a source, with the polynomial of one period. The period is at most `2 ^ 32`, as in
`Transform.interpolate`; only limits that a caller has set higher let a longer one come this far. -/
def ofSource (source : CycleSource) : Except RunFault CyclicColumn := do
  let values ← sourceValues source
  return ⟨values, Transform.interpolate values⟩

def period (c : CyclicColumn) : Nat :=
  c.values.length

/-- The value at a step. -/
def valueAt (c : CyclicColumn) (step : Nat) : Element :=
  c.values.getD (step % c.period) 0

/-- The value at a point of the field, for a trace of `length` rows: along the trace the points run
through the domain of the period as often as the period fits. -/
def evaluateAt (c : CyclicColumn) (x : Element) (length : Nat) : Element :=
  Transform.eval c.poly (x.pow (length / c.period))

end CyclicColumn

end Arithmetization

import Arithmetization.Register.Basic

/-!
Declaring registers. Each declaration is checked against the earlier ones when it is made; what
concerns all of them together is checked at the end.
-/

set_option autoImplicit false

namespace Arithmetization

/-- Whether `n` is a power of two. -/
def isPowerOfTwo (n : Nat) : Bool :=
  1 <<< n.log2 == n

/-- Declarations so far, over a field with the given modulus. -/
structure RegisterBuilder where
  modulus : Nat
  registers : List Register
deriving DecidableEq, Repr

namespace RegisterBuilder

def empty (modulus : Nat) : RegisterBuilder := ⟨modulus, []⟩

/-- The index of the next register. -/
def nextIndex (b : RegisterBuilder) : Nat :=
  b.registers.length

/-- Append a register that has been checked. -/
def push (b : RegisterBuilder) (r : Register) : RegisterBuilder :=
  { b with registers := b.registers ++ [r] }

/-- The rank of an input register with the given parent: one more than the parent's, which has to be
an earlier input register and no leaf. -/
def rank (b : RegisterBuilder) : Option Nat → Except RegisterFault Nat
  | none => .ok 0
  | some p =>
    match b.registers[p]? with
    | some (.input r) => if r.isLeaf then .error (.parentLeaf p) else .ok (r.rank + 1)
    | _ => .error (.parentUnknown p)

/-- Declare an input register. -/
def input (b : RegisterBuilder) (secret binary scalar : Bool) (parent steps : Option Nat) :
    Except RegisterFault RegisterBuilder := do
  let rank ← b.rank parent
  if scalar && parent.isSome then throw .scalarWithParent
  match steps with
  | some n => if !isPowerOfTwo n then throw (.steps n)
  | none => pure ()
  return b.push (.input ⟨secret, binary, scalar, rank, parent, steps⟩)

/-- The first written number of a cycle that is no element of the field. -/
def outside? (b : RegisterBuilder) : CycleSource → Option RegisterFault
  | .values vs => (vs.find? (b.modulus ≤ ·)).map .cycleValue
  | .power base _ => if b.modulus ≤ base then some (.powerBase base) else none
  | .prng _ _ => none

/-- Declare a cyclic register. -/
def cycle (b : RegisterBuilder) (source : CycleSource) : Except RegisterFault RegisterBuilder :=
  match b.outside? source with
  | some cause => .error cause
  | none =>
    if isPowerOfTwo source.period then .ok (b.push (.cycle source))
    else .error (.cycleLength source.period)

/-- Declare a mask register. -/
def mask (b : RegisterBuilder) (source value : Nat) : Except RegisterFault RegisterBuilder :=
  if b.registers.length ≤ source then .error (.maskSource source)
  else if b.modulus ≤ value then .error (.maskValue value)
  else .ok (b.push (.mask source value))

/-- Input registers that are neither leaves nor parents. -/
def barren (set : RegisterSet) : List RegisterFault :=
  (set.inputs.filter fun (i, r) => !r.isLeaf && (set.children i).isEmpty).map
    fun (i, _) => .noChildren i

/-- Leaves whose steps are not those of the first leaf. -/
def uneven (set : RegisterSet) : List RegisterFault :=
  match set.inputs.filterMap fun (i, r) => r.steps.map (i, ·) with
  | [] => []
  | (_, shared) :: rest =>
    (rest.filter fun (_, n) => n != shared).map fun (i, n) => .leafSteps i n shared

/-- All declarations together, or everything that is wrong with them. -/
def build (b : RegisterBuilder) : Except (List Fault) RegisterSet :=
  let set : RegisterSet := ⟨b.registers⟩
  match barren set ++ uneven set with
  | [] => .ok set
  | causes => .error (causes.map (.register · none))

end RegisterBuilder

end Arithmetization

import Arithmetization.Fault

/-!
Static registers. Input registers form a forest: a register with a parent has a group of values for
every value of its parent, and a leaf holds each of its values for a number of steps. A cyclic
register repeats a sequence, a mask register marks the rows where another register has a given
value.
-/

set_option autoImplicit false

namespace Arithmetization

/-- An input register. `rank` is the number of its ancestors; only leaves have `steps`. -/
structure InputRegister where
  secret : Bool
  binary : Bool
  /-- Exactly one value. -/
  scalar : Bool
  rank : Nat
  parent : Option Nat
  steps : Option Nat
deriving DecidableEq, Repr

namespace InputRegister

def isLeaf (r : InputRegister) : Bool :=
  r.steps.isSome

end InputRegister

/-- Where the values of a cycle come from. -/
inductive CycleSource where
  | values (vs : List Nat)
  /-- Pseudo-random values from a seed. -/
  | prng (seed : List UInt8) (count : Nat)
  /-- The powers of a number, from the zeroth on. -/
  | power (base count : Nat)
deriving DecidableEq, Repr

namespace CycleSource

/-- The number of values after which a cycle repeats. -/
def period : CycleSource → Nat
  | .values vs => vs.length
  | .prng _ count => count
  | .power _ count => count

end CycleSource

inductive Register where
  | input (r : InputRegister)
  | cycle (source : CycleSource)
  | mask (source value : Nat)
deriving DecidableEq, Repr

namespace Register

/-- The word that a declaration starts with. -/
def keyword : Register → String
  | .input _ => "input"
  | .cycle _ => "cycle"
  | .mask _ _ => "mask"

def input? : Register → Option InputRegister
  | .input r => some r
  | _ => none

end Register

/-- Registers in the order of their declarations. -/
structure RegisterSet where
  registers : List Register
deriving DecidableEq, Repr

namespace RegisterSet

def empty : RegisterSet := ⟨[]⟩

def size (set : RegisterSet) : Nat :=
  set.registers.length

/-- The input registers with their indexes among all registers. -/
def inputs (set : RegisterSet) : List (Nat × InputRegister) :=
  set.registers.zipIdx.filterMap fun (r, i) => r.input?.map (i, ·)

/-- The input registers that have `index` as their parent. -/
def children (set : RegisterSet) (index : Nat) : List Nat :=
  (set.inputs.filter fun (_, r) => r.parent = some index).map Prod.fst

/-- The steps of the first leaf; in a set that was accepted, of every leaf. -/
def leafSteps (set : RegisterSet) : Option Nat :=
  set.inputs.findSome? fun (_, r) => r.steps

/-- Which registers are secret, in order: a secret input is, and a mask is if its source is. -/
def secrecy (set : RegisterSet) : List Bool :=
  set.registers.foldl
    (fun flags r =>
      flags ++
        [match r with
          | .input r => r.secret
          | .cycle _ => false
          | .mask source _ => flags.getD source false])
    []

def isSecret (set : RegisterSet) (index : Nat) : Bool :=
  set.secrecy.getD index false

/-- The indexes of the secret registers. -/
def secrets (set : RegisterSet) : List Nat :=
  (set.secrecy.zipIdx.filter Prod.fst).map Prod.snd

/-- The longest period of a cycle; `0` if there is none. -/
def maxPeriod (set : RegisterSet) : Nat :=
  set.registers.foldl
    (fun longest r =>
      match r with
      | .cycle source => max longest source.period
      | _ => longest)
    0

end RegisterSet

end Arithmetization

import Arithmetization.Field.Element
import Arithmetization.Machine.Fault
import Arithmetization.Register.Basic

/-!
Input trees. The values of an input register of rank `r` are given in lists nested `r + 1` deep; the
innermost lists are its groups, one for each value of its parent.
-/

set_option autoImplicit false

namespace Arithmetization

/-- The values given to one input register. -/
inductive InputTree where
  | value (n : Nat)
  | list (items : List InputTree)

namespace InputTree

/-- The values of a group. -/
def groupValues : List InputTree → Except RunFault (List Nat)
  | [] => .ok []
  | .value n :: rest => do return n :: (← groupValues rest)
  | .list _ :: _ => .error (.input .nestedTooDeep)

mutual

/-- The lengths of the groups of a tree for a register of the given rank, and all values in order.
-/
def flatten (rank : Nat) : InputTree → Except RunFault (List Nat × List Nat)
  | .value _ => .error (.input .nestedTooShallow)
  | .list items =>
    match rank with
    | 0 => do
      let values ← groupValues items
      return ([items.length], values)
    | rank + 1 => flattenAll rank items

/-- The groups of several trees, one after the other. -/
def flattenAll (rank : Nat) : List InputTree → Except RunFault (List Nat × List Nat)
  | [] => .ok ([], [])
  | t :: ts => do
    let (shape, values) ← flatten rank t
    let (shapes, rest) ← flattenAll rank ts
    return (shape ++ shapes, values ++ rest)

end

end InputTree

/-- What has to be known about an input register to give it values. -/
structure InputSlot where
  /-- The index among all static registers. -/
  register : Nat
  rank : Nat
  secret : Bool
  binary : Bool
  scalar : Bool
  /-- The place of the parent among the input registers. -/
  parent : Option Nat
  steps : Option Nat
deriving DecidableEq, Repr

namespace InputSlot

def isLeaf (s : InputSlot) : Bool :=
  s.steps.isSome

/-- The input registers of a set, in order. -/
def ofRegisters (set : RegisterSet) : List InputSlot :=
  let positions := set.inputs.map Prod.fst
  set.inputs.map fun (register, r) =>
    ⟨register, r.rank, r.secret, r.binary, r.scalar, r.parent.bind positions.idxOf?, r.steps⟩

/-- A given number as a value of the register. -/
def value (s : InputSlot) (n : Nat) : Except RunFault Element :=
  if Word.modulus ≤ n then .error (.input (.outsideField n s.register))
  else if s.binary && 1 < n then .error (.input (.notBinary s.register n))
  else .ok (.ofNat n)

/-- The group lengths and values of a tree; a scalar register may be given its value without a
list. -/
def values (s : InputSlot) (tree : InputTree) : Except RunFault (List Nat × List Element) := do
  let (shape, numbers) ←
    match tree, s.scalar with
    | .value n, true => .ok ([1], [n])
    | tree, _ => tree.flatten s.rank
  return (shape, ← numbers.mapM s.value)

end InputSlot

end Arithmetization

import Arithmetization.Sequence

/-!
Static registers on the rows of a trace.
-/

set_option autoImplicit false

namespace Arithmetization

/-- How a static register gets its values. -/
inductive StaticRule where
  /-- From the input register with the given place among the input registers. -/
  | input (position : Nat) (secret : Bool)
  | cycle (column : CyclicColumn)
  | mask (source : Nat) (value : Element) (secret : Bool)
deriving DecidableEq

namespace StaticRule

def isSecret : StaticRule → Bool
  | .input _ secret => secret
  | .cycle _ => false
  | .mask _ _ secret => secret

/-- Whether the values at a point come from the column of the register: they do if it is public and
no cycle. -/
def usesColumn : StaticRule → Bool
  | .cycle _ => false
  | rule => !rule.isSecret

/-- The rules of the registers after `inputs` input registers, each with its secrecy. -/
def ofRegistersFrom (inputs : Nat) : List (Register × Bool) → Except RunFault (List StaticRule)
  | [] => .ok []
  | (.input _, secret) :: rest => do
    return .input inputs secret :: (← ofRegistersFrom (inputs + 1) rest)
  | (.cycle source, _) :: rest => do
    let column ← CyclicColumn.ofSource source
    return .cycle column :: (← ofRegistersFrom inputs rest)
  | (.mask source value, secret) :: rest => do
    let value ← CyclicColumn.fieldElement value
    return .mask source value secret :: (← ofRegistersFrom inputs rest)

/-- The rules of a set of registers. -/
def ofRegisters (set : RegisterSet) : Except RunFault (List StaticRule) :=
  ofRegistersFrom 0 (set.registers.zip set.secrecy)

/-- One where the column has the value, zero elsewhere. -/
def maskColumn (value : Element) (column : List Element) : List Element :=
  column.map fun x => if x = value then 1 else 0

/-- The column of a register from the columns of the input registers and of the registers before it;
unknown if what it is made from is. -/
def column (inputs : List (Option (List Element))) (length : Nat)
    (earlier : List (Option (List Element))) : StaticRule → Option (List Element)
  | .input position _ => inputs.getD position none
  | .cycle c => some ((List.range length).map c.valueAt)
  | .mask source value _ => (earlier.getD source none).map (maskColumn value)

/-- The columns of all registers over a trace of `length` rows. -/
def columns (rules : List StaticRule) (inputs : List (Option (List Element))) (length : Nat) :
    List (Option (List Element)) :=
  rules.foldl (fun earlier r => earlier ++ [r.column inputs length earlier]) []

/-- The longest period of a cycle; `0` if there is none. -/
def maxPeriod (rules : List StaticRule) : Nat :=
  rules.foldl
    (fun longest r =>
      match r with
      | .cycle c => max longest c.period
      | _ => longest)
    0

end StaticRule

end Arithmetization

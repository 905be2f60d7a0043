/-!
Counts of a machine. The lengths of vectors, the numbers of values and of operations and the places
in a text are kept in 64 or 32 bits, and a list has to fit into memory. What happens to a count that
leaves its range is settled when the program is built: it stops the run, or the count goes round.
Counts that stay in range are the same either way, and the same as without any range.
-/

set_option autoImplicit false

namespace Arithmetization

/-- Why a run ends without an answer. -/
inductive Stop where
  /-- A count left its range. -/
  | overflow
  /-- A list was asked for that is longer than any memory. -/
  | capacity
deriving DecidableEq, Repr

namespace Stop

def message : Stop → String
  | .overflow => "count out of range"
  | .capacity => "list too long for memory"

end Stop

/-- Whether memory can be asked for a list of `n` entries of `bytes` bytes each. -/
def fitsMemory (bytes n : Nat) : Bool :=
  bytes * n < 0x8000000000000000

/-- What happens to a count that leaves its range. -/
inductive Overflow where
  | trap
  | wrap
  /-- Nothing: there is no range. This is no machine, but what both machines are compared with. -/
  | exact
deriving DecidableEq, Repr

namespace Overflow

/-- Counts of 64 bits are below this bound. -/
def bound : Nat := 0x10000000000000000

/-- The count that is kept for the number `n`. -/
def keep (o : Overflow) (n : Nat) : Except Stop Nat :=
  if n < bound then .ok n
  else
    match o with
    | .trap => .error .overflow
    | .wrap => .ok (n % bound)
    | .exact => .ok n

def add (o : Overflow) (m n : Nat) : Except Stop Nat :=
  o.keep (m + n)

def mul (o : Overflow) (m n : Nat) : Except Stop Nat :=
  o.keep (m * n)

/-- The sum of some counts, added one after the other. -/
def sum (o : Overflow) (ns : List Nat) : Except Stop Nat :=
  ns.foldlM o.add 0

end Overflow

end Arithmetization

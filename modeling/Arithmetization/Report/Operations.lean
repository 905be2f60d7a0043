import Arithmetization.Overflow
import Arithmetization.Procedure.Basic

/-!
How many field operations it takes to run a body: additions, multiplications and inversions, a
power counted as square-and-multiply, a call as the body that is called. The counts are those of a
machine and may leave their range.
-/

set_option autoImplicit false

namespace Arithmetization

structure OpCounts where
  add : Nat := 0
  mul : Nat := 0
  inv : Nat := 0
deriving DecidableEq, Repr

namespace OpCounts

/-- The sum of what was counted in two places. -/
def plus (o : Overflow) (a b : Except Stop OpCounts) : Except Stop OpCounts := do
  let a ← a
  let b ← b
  return ⟨← o.add a.add b.add, ← o.add a.mul b.mul, ← o.add a.inv b.inv⟩

def total (o : Overflow) (cs : List (Except Stop OpCounts)) : Except Stop OpCounts :=
  cs.foldl (plus o) (.ok {})

/-- The number of ones among the binary digits. -/
def ones (n : Nat) : Nat :=
  (List.range (n.log2 + 1)).countP n.testBit

/-- Multiplications for an `e`-th power: one square a digit after the first and one product for
every further digit that is one. -/
def power (e : Nat) : Nat :=
  if e < 2 then 0 else e.log2 + (ones e - 1)

/-- The number above a power; `0` if it is not known. -/
def exponent (constants : List Literal) (args : List Expr) : Nat :=
  ((args[1]?.bind Expr.exponent?).bind (·.value? constants)).getD 0

/-- The operations of one node, those of its operands not counted. The elements of its value are
counted even where no operation is made for each of them. -/
def node (o : Overflow) (constants : List Literal) (callees : List (Except Stop OpCounts)) (op : Op)
    (shape : Shape) (args : List Expr) : Except Stop OpCounts := do
  let n ← o.keep shape.size
  match op with
  | .binary .add => return { add := n }
  | .binary .sub => return { add := n }
  | .binary .mul => return { mul := n }
  | .binary .div => return { mul := n, inv := n }
  | .binary .exp => return { mul := ← o.mul n (power (exponent constants args)) }
  | .binary .prod =>
    -- every result element is a sum of `k` products
    let k := ((args[1]?.map Expr.shape).getD .scalar).rows
    return { mul := ← o.mul n k, add := ← o.mul n (k - 1) }
  | .unary .neg => return { add := n }
  | .unary .inv => return { inv := n }
  | .call f => callees.getD f (.ok {})
  | _ => return {}

def expr (o : Overflow) (constants : List Literal) (callees : List (Except Stop OpCounts)) :
    Expr → Except Stop OpCounts :=
  Expr.fold fun op shape args counts =>
    plus o (total o counts) (node o constants callees op shape args)

def block (o : Overflow) (constants : List Literal) (callees : List (Except Stop OpCounts))
    (b : Block) : Except Stop OpCounts :=
  total o (b.exprs.map (expr o constants callees))

/-- The counts of the functions when calls may nest `depth` deep; a chain of calls that comes back
to no function is no longer than the list of functions. -/
def callees (o : Overflow) (constants : List Literal) (functions : List Function) :
    Nat → List (Except Stop OpCounts)
  | 0 => functions.map fun _ => .ok {}
  | depth + 1 =>
    let inner := callees o constants functions depth
    functions.map fun f => block o constants inner f.body.block

/-- The operations of a body. -/
def body (o : Overflow) (constants : List Literal) (functions : List Function) (b : Body) :
    Except Stop OpCounts :=
  block o constants (callees o constants functions functions.length) b.block

end OpCounts

end Arithmetization

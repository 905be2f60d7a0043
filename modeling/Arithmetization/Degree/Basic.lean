import Arithmetization.Fault

/-!
Degrees: for every element of a value, a bound on its degree as a polynomial in the trace and static
registers. Degrees are counted up to a cap and stay there.
-/

set_option autoImplicit false

namespace Arithmetization

/-- One bound for every element. -/
abbrev Degree := Tensor Nat

namespace Degree

/-- The greatest degree that is counted. -/
def cap : Nat := 0xFFFFFFFF

/-- The sum of two degrees, up to the cap. -/
def addCapped (a b : Nat) : Nat :=
  min (a + b) cap

/-- A multiple of a degree, up to the cap. -/
def mulCapped (a e : Nat) : Nat :=
  min (a * e) cap

/-- The greatest degree of a list; `0` for none. -/
def maxOf (ds : List Nat) : Nat :=
  ds.foldl max 0

/-- The greatest degree of any element. -/
def top (d : Degree) : Nat :=
  maxOf d.elements

/-- Whether no element depends on a register. -/
def isConstant (d : Degree) : Bool :=
  d.top == 0

def zero (s : Shape) : Degree :=
  Tensor.uniform s 0

/-- Whether memory can be asked for the degrees of a value of this shape. A degree takes four bytes
and a list of degrees twenty-four. -/
def canHold (s : Shape) : Bool :=
  if s.isScalar then true
  else if s.isVector then fitsMemory 4 s.rows
  else fitsMemory 4 s.cols && fitsMemory 24 s.rows

/-- One degree for all elements of a value that need not exist, so memory may not hold it. -/
def filled (s : Shape) (d : Nat) : Except Fault Degree :=
  if canHold s then .ok (.uniform s d) else .error (.stop .capacity)

/-- A degree that is kept as a whole. -/
def kept (d : Degree) : Except Fault Degree :=
  if canHold d.shape then .ok d else .error (.stop .capacity)

/-- Combine two degrees element by element, a scalar with every element of the other side. -/
def zipWith (f : Nat → Nat → Nat) (a b : Degree) : Except Fault Degree :=
  match Tensor.align a b with
  | some pairs => .ok (pairs.map fun (x, y) => f x y)
  | none => .error (.shape .degreeShapes none)

/-- The degree of a sum of products. -/
def dot (xs ys : List Nat) : Nat :=
  maxOf (List.zipWith addCapped xs ys)

/-- The degree of a product of vectors and matrices. -/
def product : Degree → Degree → Except Fault Degree
  | .vector xs, .vector ys => .ok (.scalar (dot xs ys))
  | .matrix rows, .vector ys => .ok (.vector (rows.map (dot · ys)))
  | .matrix rows, .matrix cols =>
    let width := (cols.head?.map List.length).getD 0
    .ok (.matrix (rows.map fun row =>
      (List.range width).map fun j => dot row (cols.map (·.getD j 0))))
  | _, _ => .error (.shape .degreeProduct none)

/-- The elements of a vector degree. -/
def vectorOf : Degree → Except Fault (List Nat)
  | .vector xs => .ok xs
  | _ => .error (.shape .degreeVector none)

/-- How much larger than the trace a domain has to be to hold constraints of a given degree: the
least power of two that is no less. -/
def compositionFactor (top : Nat) : Nat :=
  if top ≤ 1 then 1 else 1 <<< ((top - 1).log2 + 1)

end Degree

end Arithmetization

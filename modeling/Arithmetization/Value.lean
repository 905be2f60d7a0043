import Arithmetization.Field.Element
import Arithmetization.Machine.Fault
import Arithmetization.Tensor

/-!
Values that expressions compute: tensors of field elements, with their operations. A scalar combines
with every element of the other side; inversion and division refuse zero.
-/

set_option autoImplicit false

namespace Arithmetization

abbrev Value := Tensor Element

/-- The word for the kind of a tensor. -/
def Tensor.kind {α : Type} : Tensor α → String
  | .scalar _ => "scalar"
  | .vector _ => "vector"
  | .matrix _ => "matrix"

namespace Value

/-- The value of a literal. -/
def ofLiteral (l : Literal) : Value :=
  l.map Element.ofNat

/-- The element of a scalar. -/
def asScalar (v : Value) : Except RunFault Element :=
  match v.scalar? with
  | some x => .ok x
  | none => .error (.shape (.kind "scalar" v.kind))

/-- The elements of a vector. -/
def asVector (v : Value) : Except RunFault (List Element) :=
  match v.vector? with
  | some xs => .ok xs
  | none => .error (.shape (.kind "vector" v.kind))

/-- Combine two values element by element. -/
def zipWith (f : Element → Element → Except RunFault Element) (a b : Value) :
    Except RunFault Value :=
  match if Tensor.sameRows a b then Tensor.align a b else none with
  | some pairs => pairs.mapM fun (x, y) => f x y
  | none => .error (.shape (.combine a.kind b.kind))

/-- The inverse of an element that is not zero. -/
def inverse (x : Element) : Except RunFault Element :=
  if x = 0 then .error .divisionByZero else .ok x.inv

def add : Value → Value → Except RunFault Value :=
  zipWith fun x y => .ok (x + y)

def sub : Value → Value → Except RunFault Value :=
  zipWith fun x y => .ok (x - y)

def mul : Value → Value → Except RunFault Value :=
  zipWith fun x y => .ok (x * y)

def div : Value → Value → Except RunFault Value :=
  zipWith fun x y => do return x * (← inverse y)

def pow (a : Value) (e : Nat) : Value :=
  a.map (·.pow e)

def neg (a : Value) : Value :=
  a.map fun x => -x

def inv (a : Value) : Except RunFault Value :=
  a.mapM inverse

/-- The sum of the products of two lists, from the left. -/
def dot (xs ys : List Element) : Element :=
  (xs.zip ys).foldl (fun acc (x, y) => acc + x * y) 0

/-- The product of vectors and matrices. -/
def prod : Value → Value → Except RunFault Value
  | .vector xs, .vector ys =>
    if xs.length = ys.length then .ok (.scalar (dot xs ys))
    else .error (.shape (.product "vector" "vector"))
  | .matrix rows, .vector ys =>
    if rows.all (·.length == ys.length) then .ok (.vector (rows.map (dot · ys)))
    else .error (.shape (.product "matrix" "vector"))
  | .matrix rows, .matrix cols =>
    if rows.all (·.length == cols.length) && !cols.isEmpty then
      let width := (cols.head?.map List.length).getD 0
      .ok (.matrix (rows.map fun row =>
        (List.range width).map fun j => dot row (cols.map (·.getD j 0))))
    else .error (.shape (.product "matrix" "matrix"))
  | a, b => .error (.shape (.product a.kind b.kind))

/-- One element of a vector. -/
def get (v : Value) (index : Nat) : Except RunFault Value :=
  match v with
  | .vector xs =>
    match xs[index]? with
    | some x => .ok (.scalar x)
    | none => .error (.shape (.getBounds index))
  | v => .error (.shape (.getOf v.kind))

/-- The elements `first` to `last` of a list, both included, if they are all there. -/
def segment? (xs : List Element) (first last : Nat) : Option (List Element) :=
  if first ≤ last ∧ last < xs.length then some ((xs.drop first).take (last + 1 - first)) else none

/-- The elements `first` to `last` of a vector, both included. -/
def slice (v : Value) (first last : Nat) : Except RunFault Value :=
  match v with
  | .vector xs =>
    match segment? xs first last with
    | some ys => .ok (.vector ys)
    | none => .error (.shape (.sliceBounds first last xs.length))
  | v => .error (.shape (.sliceOf v.kind))

/-- The elements that a value has inside a vector. -/
def part : Value → Except RunFault (List Element)
  | .scalar x => .ok [x]
  | .vector xs => .ok xs
  | .matrix _ => .error (.shape .matrixInVector)

/-- Scalars and vectors one after the other. -/
def concat (parts : List Value) : Except RunFault Value := do
  return .vector (← parts.mapM part).flatten

end Value

end Arithmetization
